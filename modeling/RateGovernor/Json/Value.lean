import RateGovernor.Json.Lexer

/-!
# JSON values

A value keeps what its text says: the spelling of numerals and the members of objects in order, with
repeated names. `Value.tokens` spells a value out and so gives its compact text; a machine with a
stack of unfinished arrays and objects reads tokens back, one at a time.
-/

namespace RateGovernor.Json

/-- A JSON value. A string or a member name that is not made of characters is none. -/
inductive Value where
  | null
  | bool (value : Bool)
  | number (value : Numeral)
  | string (value : Option String)
  | array (items : List Value)
  | object (members : List (Option String × Value))
  deriving Repr

instance : Inhabited Value := ⟨.null⟩

/-! ### Writing -/

mutual

def Value.tokens : Value → List Token
  | .null => [.null]
  | .bool b => [.bool b]
  | .number n => [.number n]
  | .string s => [.string s]
  | .array [] => [.leftBracket, .rightBracket]
  | .array (v :: items) => .leftBracket :: (v.tokens ++ itemTokens items)
  | .object [] => [.leftBrace, .rightBrace]
  | .object ((name, v) :: members) =>
    .leftBrace :: .string name :: .colon :: (v.tokens ++ memberTokens members)

/-- The tokens of further items and the closing bracket. -/
def itemTokens : List Value → List Token
  | [] => [.rightBracket]
  | v :: items => .comma :: (v.tokens ++ itemTokens items)

/-- The tokens of further members and the closing brace. -/
def memberTokens : List (Option String × Value) → List Token
  | [] => [.rightBrace]
  | (name, v) :: members =>
    .comma :: .string name :: .colon :: (v.tokens ++ memberTokens members)

end

def Value.text (v : Value) : String := .ofList (v.tokens.flatMap Token.text)

/-! ### Reading -/

/-- An array or object of which a part is read, the latest item or member first. -/
inductive Frame where
  | array (before : List Value)
  | object (before : List (Option String × Value)) (name : Option String)

/-- What the reader has come to: the unfinished containers, innermost first, and what must come
next. -/
inductive Progress where
  | value (stack : List Frame)
  | firstItem (stack : List Frame)
  | firstName (stack : List Frame)
  | nextName (before : List (Option String × Value)) (stack : List Frame)
  | colon (before : List (Option String × Value)) (name : Option String) (stack : List Frame)
  | after (value : Value) (stack : List Frame)

namespace Progress

def start (stack : List Frame) : Token → Option Progress
  | .null => some (.after .null stack)
  | .bool b => some (.after (.bool b) stack)
  | .number n => some (.after (.number n) stack)
  | .string s => some (.after (.string s) stack)
  | .leftBracket => some (.firstItem stack)
  | .leftBrace => some (.firstName stack)
  | _ => none

/-- A token after a value, in the innermost container. -/
def proceed (v : Value) : List Frame → Token → Option Progress
  | .array before :: stack, .comma => some (.value (.array (v :: before) :: stack))
  | .array before :: stack, .rightBracket => some (.after (.array (v :: before).reverse) stack)
  | .object before name :: stack, .comma => some (.nextName ((name, v) :: before) stack)
  | .object before name :: stack, .rightBrace =>
    some (.after (.object ((name, v) :: before).reverse) stack)
  | _, _ => none

def step : Progress → Token → Option Progress
  | .value stack, t => start stack t
  | .firstItem stack, .rightBracket => some (.after (.array []) stack)
  | .firstItem stack, t => start (.array [] :: stack) t
  | .firstName stack, .rightBrace => some (.after (.object []) stack)
  | .firstName stack, .string name => some (.colon [] name stack)
  | .firstName _, _ => none
  | .nextName before stack, .string name => some (.colon before name stack)
  | .nextName _ _, _ => none
  | .colon before name stack, .colon => some (.value (.object before name :: stack))
  | .colon _ _ _, _ => none
  | .after v stack, t => proceed v stack t

/-- The value, once it is complete and in no container. -/
def finished? : Progress → Option Value
  | .after v [] => some v
  | _ => none

end Progress

/-- The value that a list of tokens spells. -/
def Value.ofTokens? (tokens : List Token) : Option Value := do
  (← tokens.foldlM Progress.step (.value [])).finished?

def Value.parse? (text : String) : Option Value := do
  ofTokens? (← lex text.toList)

end RateGovernor.Json
