import RateGovernor.Json.Token

/-!
# Reading JSON tokens

Each reader takes one item off the front of the text and returns what is left. `lex` reads a whole
text; blanks may stand before, between and after tokens.
-/

namespace RateGovernor.Json

/-! ### Numerals -/

/-- The digits after the point, or none without a point. A point without digits is refused. -/
def readFraction : List Char → Option (List Digit × List Char)
  | '.' :: rest =>
    match rest.takeWhile Char.isDigit with
    | [] => none
    | digits => some (digits.map fun c => Digit.ofNat (c.toNat - '0'.toNat),
        rest.dropWhile Char.isDigit)
  | rest => some ([], rest)

/-- The sign of an exponent: a plus or no sign means positive. -/
def readSign : List Char → Bool × List Char
  | '-' :: rest => (true, rest)
  | '+' :: rest => (false, rest)
  | rest => (false, rest)

/-- The power of ten after an e of either case, if there is one. -/
def readExponent : List Char → Option (Option Int × List Char)
  | c :: rest =>
    if c = 'e' ∨ c = 'E' then
      let (negative, rest) := readSign rest
      match rest.takeWhile Char.isDigit with
      | [] => none
      | digits =>
        let size : Int := Nat.ofDigitChars 10 digits 0
        some (some (if negative then -size else size), rest.dropWhile Char.isDigit)
    else some (none, c :: rest)
  | [] => some (none, [])

/-- The whole part, which has no leading zeros. -/
def readWhole (s : List Char) : Option (Nat × List Char) :=
  match s.takeWhile Char.isDigit with
  | [] => none
  | '0' :: _ :: _ => none
  | digits => some (Nat.ofDigitChars 10 digits 0, s.dropWhile Char.isDigit)

def readMagnitude (negative : Bool) (s : List Char) : Option (Numeral × List Char) := do
  let (whole, s) ← readWhole s
  let (fraction, s) ← readFraction s
  let (exponent, s) ← readExponent s
  return (⟨negative, whole, fraction, exponent⟩, s)

def readNumeral : List Char → Option (Numeral × List Char)
  | '-' :: rest => readMagnitude true rest
  | s => readMagnitude false s

/-! ### Strings -/

/-- Part of a string: a character, or a 16-bit unit given by its number. -/
inductive Piece where
  | char (c : Char)
  | unit (u : Nat)
  deriving DecidableEq, Repr

def hexValue? (c : Char) : Option Nat :=
  if '0' ≤ c ∧ c ≤ '9' then some (c.toNat - '0'.toNat)
  else if 'a' ≤ c ∧ c ≤ 'f' then some (c.toNat - 'a'.toNat + 10)
  else if 'A' ≤ c ∧ c ≤ 'F' then some (c.toNat - 'A'.toNat + 10)
  else none

/-- The number of a unit, from four hexadecimal digits. -/
def unit? (a b c d : Char) : Option Nat := do
  return (((← hexValue? a) * 16 + (← hexValue? b)) * 16 + (← hexValue? c)) * 16 + (← hexValue? d)

/-- The character that a letter after a backslash stands for. -/
def unescape? (c : Char) : Option Char :=
  if c = '"' ∨ c = '\\' ∨ c = '/' then some c
  else if c = 'b' then some '\x08'
  else if c = 'f' then some '\x0c'
  else if c = 'n' then some '\n'
  else if c = 'r' then some '\r'
  else if c = 't' then some '\t'
  else none

/-- The pieces of a string up to its closing quote. Control characters have to be escaped. -/
def readPieces : List Char → Option (List Piece × List Char)
  | '"' :: rest => some ([], rest)
  | '\\' :: 'u' :: a :: b :: c :: d :: rest => do
    let u ← unit? a b c d
    let (pieces, rest) ← readPieces rest
    return (.unit u :: pieces, rest)
  | '\\' :: c :: rest => do
    let c ← unescape? c
    let (pieces, rest) ← readPieces rest
    return (.char c :: pieces, rest)
  | c :: rest =>
    if c.toNat < 32 then none
    else do
      let (pieces, rest) ← readPieces rest
      return (.char c :: pieces, rest)
  | [] => none

def isHighSurrogate (u : Nat) : Bool := 0xd800 ≤ u && u < 0xdc00

def isLowSurrogate (u : Nat) : Bool := 0xdc00 ≤ u && u < 0xe000

/-- The characters of a string, unless a surrogate has no partner. -/
def characters? : List Piece → Option (List Char)
  | [] => some []
  | .char c :: rest => (characters? rest).map (c :: ·)
  | .unit u :: .unit v :: rest =>
    if isHighSurrogate u && isLowSurrogate v then
      (characters? rest).map (.ofNat (0x10000 + (u - 0xd800) * 0x400 + (v - 0xdc00)) :: ·)
    else if isHighSurrogate u || isLowSurrogate u then none
    else (characters? (.unit v :: rest)).map (.ofNat u :: ·)
  | .unit u :: rest =>
    if isHighSurrogate u || isLowSurrogate u then none
    else (characters? rest).map (.ofNat u :: ·)

/-! ### Tokens -/

/-- The token at the front of a text. -/
def readToken : List Char → Option (Token × List Char)
  | '\x7b' :: rest => some (.leftBrace, rest)
  | '\x7d' :: rest => some (.rightBrace, rest)
  | '[' :: rest => some (.leftBracket, rest)
  | ']' :: rest => some (.rightBracket, rest)
  | ':' :: rest => some (.colon, rest)
  | ',' :: rest => some (.comma, rest)
  | 'n' :: 'u' :: 'l' :: 'l' :: rest => some (.null, rest)
  | 't' :: 'r' :: 'u' :: 'e' :: rest => some (.bool true, rest)
  | 'f' :: 'a' :: 'l' :: 's' :: 'e' :: rest => some (.bool false, rest)
  | '"' :: rest => do
    let (pieces, rest) ← readPieces rest
    return (.string ((characters? pieces).map .ofList), rest)
  | s => do
    let (n, rest) ← readNumeral s
    return (.number n, rest)

/-! ### Every reader leaves less than it was given -/

private theorem length_dropWhile_le (s : List Char) :
    (s.dropWhile Char.isDigit).length ≤ s.length :=
  (List.dropWhile_sublist _).length_le

private theorem length_dropWhile_lt {s : List Char} (h : s.takeWhile Char.isDigit ≠ []) :
    (s.dropWhile Char.isDigit).length < s.length := by
  have hsplit := congrArg List.length (List.takeWhile_append_dropWhile (p := Char.isDigit) (l := s))
  have hpos := List.length_pos_iff.2 h
  rw [List.length_append] at hsplit
  omega

private theorem length_readFraction_le {s rest : List Char} {ds : List Digit}
    (h : readFraction s = some (ds, rest)) : rest.length ≤ s.length := by
  unfold readFraction at h
  split at h
  · split at h
    · cases h
    · cases h
      exact Nat.le_succ_of_le (length_dropWhile_le _)
  · cases h
    exact Nat.le_refl _

private theorem length_readSign_le (s : List Char) : (readSign s).2.length ≤ s.length := by
  unfold readSign
  split <;> simp

private theorem length_readExponent_le {s rest : List Char} {e : Option Int}
    (h : readExponent s = some (e, rest)) : rest.length ≤ s.length := by
  unfold readExponent at h
  split at h
  · rename_i c s
    split at h
    · have hs := length_readSign_le s
      revert h hs
      generalize readSign s = signed
      obtain ⟨negative, s'⟩ := signed
      intro h hs
      dsimp only at h hs
      split at h
      · cases h
      · cases h
        exact Nat.le_succ_of_le (Nat.le_trans (length_dropWhile_le s') hs)
    · cases h
      exact Nat.le_refl _
  · cases h
    exact Nat.le_refl _

private theorem length_readWhole_lt {s rest : List Char} {n : Nat}
    (h : readWhole s = some (n, rest)) : rest.length < s.length := by
  unfold readWhole at h
  split at h
  · cases h
  · cases h
  · rename_i hne _
    cases h
    exact length_dropWhile_lt hne

private theorem length_readMagnitude_lt {s rest : List Char} {negative : Bool} {n : Numeral}
    (h : readMagnitude negative s = some (n, rest)) : rest.length < s.length := by
  simp only [readMagnitude, Option.bind_eq_bind, Option.bind_eq_some_iff, Prod.exists] at h
  obtain ⟨whole, s₁, hwhole, fraction, s₂, hfraction, exponent, s₃, hexponent, h⟩ := h
  cases h
  exact Nat.lt_of_le_of_lt (length_readExponent_le hexponent)
    (Nat.lt_of_le_of_lt (length_readFraction_le hfraction) (length_readWhole_lt hwhole))

private theorem length_readNumeral_lt {s rest : List Char} {n : Numeral}
    (h : readNumeral s = some (n, rest)) : rest.length < s.length := by
  unfold readNumeral at h
  split at h
  · exact Nat.lt_succ_of_lt (length_readMagnitude_lt h)
  · exact length_readMagnitude_lt h

private theorem length_readPieces_le {s rest : List Char} {pieces : List Piece}
    (h : readPieces s = some (pieces, rest)) : rest.length ≤ s.length := by
  fun_induction readPieces s generalizing pieces with
  | case1 => cases h; exact Nat.le_succ _
  | case2 a b c d s ih =>
    simp only [Option.bind_eq_bind, Option.bind_eq_some_iff, Prod.exists] at h
    obtain ⟨u, hu, ps, r, hr, h⟩ := h
    cases h
    have := ih hr
    simp only [List.length_cons]
    omega
  | case3 c s _ ih =>
    simp only [Option.bind_eq_bind, Option.bind_eq_some_iff, Prod.exists] at h
    obtain ⟨u, hu, ps, r, hr, h⟩ := h
    cases h
    have := ih hr
    simp only [List.length_cons]
    omega
  | case4 => cases h
  | case5 c s _ _ _ _ ih =>
    simp only [Option.bind_eq_bind, Option.bind_eq_some_iff, Prod.exists] at h
    obtain ⟨ps, r, hr, h⟩ := h
    cases h
    exact Nat.le_succ_of_le (ih hr)
  | case6 => cases h

private theorem length_readToken_lt {s rest : List Char} {t : Token}
    (h : readToken s = some (t, rest)) : rest.length < s.length := by
  unfold readToken at h
  split at h
  case h_10 =>
    simp only [Option.bind_eq_bind, Option.bind_eq_some_iff, Prod.exists] at h
    obtain ⟨ps, r, hr, h⟩ := h
    cases h
    exact Nat.lt_succ_of_le (length_readPieces_le hr)
  case h_11 =>
    simp only [Option.bind_eq_bind, Option.bind_eq_some_iff, Prod.exists] at h
    obtain ⟨n, r, hr, h⟩ := h
    cases h
    exact length_readNumeral_lt hr
  all_goals
    cases h
    simp only [List.length_cons]
    omega

def lex : List Char → Option (List Token)
  | [] => some []
  | c :: s =>
    if isBlank c then lex s
    else match h : readToken (c :: s) with
      | none => none
      | some (t, rest) =>
        have := length_readToken_lt h
        (lex rest).map (t :: ·)
termination_by s => s.length
decreasing_by
  · exact Nat.lt_succ_self _
  · assumption

end RateGovernor.Json
