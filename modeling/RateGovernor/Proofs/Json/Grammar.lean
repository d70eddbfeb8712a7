import Mathlib
import RateGovernor.Json.Value

/-!
# The grammar of JSON texts

Which texts spell a value, said without the reader. The tokens of a value are spelled one after the
other with any blanks before, between and after them. Most tokens have a single text; a power of ten
may be spelled with either case of the letter, without its plus and with leading zeros, and each
character of a string by itself, by an escape or by its number. The compact text of a value is one
of its texts.
-/

namespace RateGovernor.Json

/-- Nothing but blanks. -/
def Blank (s : List Char) : Prop := ∀ c ∈ s, isBlank c = true

/-- The ways to spell a power of ten: a letter, a sign that may be missing, and some digits. -/
inductive ExponentText : Option Int → List Char → Prop
  | absent : ExponentText none []
  | unsigned {letter : Char} {digits : List Char} :
    letter = 'e' ∨ letter = 'E' → digits ≠ [] → (∀ c ∈ digits, c.isDigit) →
    ExponentText (some (Nat.ofDigitChars 10 digits 0)) (letter :: digits)
  | plus {letter : Char} {digits : List Char} :
    letter = 'e' ∨ letter = 'E' → digits ≠ [] → (∀ c ∈ digits, c.isDigit) →
    ExponentText (some (Nat.ofDigitChars 10 digits 0)) (letter :: '+' :: digits)
  | minus {letter : Char} {digits : List Char} :
    letter = 'e' ∨ letter = 'E' → digits ≠ [] → (∀ c ∈ digits, c.isDigit) →
    ExponentText (some (-Nat.ofDigitChars 10 digits 0)) (letter :: '-' :: digits)

/-- The ways to spell a numeral, which differ in the power of ten only. -/
def NumeralText (n : Numeral) (s : List Char) : Prop :=
  ∃ exponent, ExponentText n.exponent exponent ∧ s = { n with exponent := none }.text ++ exponent

/-- The ways to spell the inside of a string. -/
inductive PiecesText : List Piece → List Char → Prop
  | nil : PiecesText [] []
  | plain {c : Char} {pieces : List Piece} {s : List Char} :
    c ≠ '"' → c ≠ '\\' → 32 ≤ c.toNat → PiecesText pieces s →
    PiecesText (.char c :: pieces) (c :: s)
  | escaped {letter c : Char} {pieces : List Piece} {s : List Char} :
    unescape? letter = some c → PiecesText pieces s →
    PiecesText (.char c :: pieces) ('\\' :: letter :: s)
  | numbered {a b c d : Char} {u : Nat} {pieces : List Piece} {s : List Char} :
    unit? a b c d = some u → PiecesText pieces s →
    PiecesText (.unit u :: pieces) ('\\' :: 'u' :: a :: b :: c :: d :: s)

namespace Token

def isNumber : Token → Bool
  | .number _ => true
  | _ => false

def isString : Token → Bool
  | .string _ => true
  | _ => false

end Token

/-- The ways to spell a token. -/
inductive TokenText : Token → List Char → Prop
  | number {n : Numeral} {s : List Char} : NumeralText n s → TokenText (.number n) s
  | string {pieces : List Piece} {s : List Char} : PiecesText pieces s →
    TokenText (.string ((characters? pieces).map .ofList)) ('"' :: (s ++ ['"']))
  | fixed {t : Token} : t.isNumber = false → t.isString = false → TokenText t t.text

/-- The ways to spell a row of tokens. -/
inductive TokensText : List Token → List Char → Prop
  | nil {blanks : List Char} : Blank blanks → TokensText [] blanks
  | cons {t : Token} {tokens : List Token} {blanks s rest : List Char} :
    Blank blanks → TokenText t s → TokensText tokens rest →
    TokensText (t :: tokens) (blanks ++ (s ++ rest))

/-- A text spells a value. -/
def Value.SpelledBy (v : Value) (text : String) : Prop := TokensText v.tokens text.toList

/-! ### The text of a value spells it -/

private theorem exponentText_signed (e : Int) : ExponentText (some e) ('e' :: signedText e) := by
  have hne : Nat.toDigits 10 e.natAbs ≠ [] := Nat.toDigits_ne_nil
  have hdigits : ∀ c ∈ Nat.toDigits 10 e.natAbs, c.isDigit = true := fun c hc =>
    Nat.isDigit_of_mem_toDigits (by decide) (by decide) hc
  have hvalue : Nat.ofDigitChars 10 (Nat.toDigits 10 e.natAbs) 0 = e.natAbs :=
    Nat.ofDigitChars_ten_toDigits
  rw [signedText]
  by_cases hneg : e < 0
  · have h : ExponentText _ ('e' :: '-' :: Nat.toDigits 10 e.natAbs) :=
      .minus (.inl rfl) hne hdigits
    have he : -(e.natAbs : Int) = e := by omega
    rw [if_pos hneg]
    rwa [hvalue, he] at h
  · have h : ExponentText _ ('e' :: '+' :: Nat.toDigits 10 e.natAbs) :=
      .plus (.inl rfl) hne hdigits
    have he : (e.natAbs : Int) = e := by omega
    rw [if_neg hneg]
    rwa [hvalue, he] at h

private theorem numeralText_text (n : Numeral) : NumeralText n n.text := by
  obtain ⟨negative, whole, fraction, exponent⟩ := n
  cases exponent with
  | none => exact ⟨[], .absent, (List.append_nil _).symm⟩
  | some e => exact ⟨'e' :: signedText e, exponentText_signed e, by simp [Numeral.text]⟩

private theorem characters?_unit {u : Nat} (hhigh : isHighSurrogate u = false)
    (hlow : isLowSurrogate u = false) (pieces : List Piece) :
    characters? (.unit u :: pieces) = (characters? pieces).map (.ofNat u :: ·) := by
  cases pieces with
  | nil => simp [characters?, hhigh, hlow]
  | cons p pieces => cases p <;> simp [characters?, hhigh, hlow]

private theorem unit?_control : ∀ n < 32,
    unit? '0' '0' (Nat.digitChar (n / 16)) (Nat.digitChar (n % 16)) = some n := by
  decide

private theorem exists_piecesText_escape (c : Char) {pieces : List Piece} {s : List Char}
    (h : PiecesText pieces s) :
    ∃ p, PiecesText (p :: pieces) (escape c ++ s) ∧
      characters? (p :: pieces) = (characters? pieces).map (c :: ·) := by
  have hletter : ∀ {letter}, unescape? letter = some c → escape c = ['\\', letter] →
      ∃ p, PiecesText (p :: pieces) (escape c ++ s) ∧
        characters? (p :: pieces) = (characters? pieces).map (c :: ·) := by
    intro letter hread hwrite
    rw [hwrite]
    exact ⟨.char c, .escaped hread h, by rw [characters?]⟩
  by_cases hquote : c = '"'
  · exact @hletter '"' (by subst hquote; decide) (by subst hquote; decide)
  by_cases hslash : c = '\\'
  · exact @hletter '\\' (by subst hslash; decide) (by subst hslash; decide)
  by_cases hb : c = '\x08'
  · exact @hletter 'b' (by subst hb; decide) (by subst hb; decide)
  by_cases ht : c = '\t'
  · exact @hletter 't' (by subst ht; decide) (by subst ht; decide)
  by_cases hn : c = '\n'
  · exact @hletter 'n' (by subst hn; decide) (by subst hn; decide)
  by_cases hf : c = '\x0c'
  · exact @hletter 'f' (by subst hf; decide) (by subst hf; decide)
  by_cases hr : c = '\r'
  · exact @hletter 'r' (by subst hr; decide) (by subst hr; decide)
  by_cases hcontrol : c.toNat < 32
  · have hhigh : isHighSurrogate c.toNat = false := by
      simp [isHighSurrogate]
      omega
    have hlow : isLowSurrogate c.toNat = false := by
      simp [isLowSurrogate]
      omega
    refine ⟨.unit c.toNat, ?_, ?_⟩
    · simp only [escape, hquote, hslash, hb, ht, hn, hf, hr, hcontrol, if_true, if_false]
      exact .numbered (unit?_control _ hcontrol) h
    · rw [characters?_unit hhigh hlow, Char.ofNat_toNat]
  · refine ⟨.char c, ?_, by rw [characters?]⟩
    simp only [escape, hquote, hslash, hb, ht, hn, hf, hr, hcontrol, if_false]
    exact .plain hquote hslash (Nat.le_of_not_lt hcontrol) h

private theorem exists_piecesText_escapes (cs : List Char) :
    ∃ pieces, PiecesText pieces (cs.flatMap escape) ∧ characters? pieces = some cs := by
  induction cs with
  | nil => exact ⟨[], .nil, rfl⟩
  | cons c cs ih =>
    obtain ⟨pieces, htext, hchars⟩ := ih
    obtain ⟨p, htext, hp⟩ := exists_piecesText_escape c htext
    refine ⟨p :: pieces, ?_, ?_⟩
    · rwa [List.flatMap_cons]
    · rw [hp, hchars, Option.map_some]

theorem tokenText_text (t : Token) : TokenText t t.text := by
  cases t with
  | number n => exact .number (numeralText_text n)
  | string s =>
    cases s with
    | none =>
      have hpieces : PiecesText [.unit 0xd800] ['\\', 'u', 'd', '8', '0', '0'] :=
        .numbered (by decide) .nil
      exact .string hpieces
    | some s =>
      obtain ⟨pieces, htext, hchars⟩ := exists_piecesText_escapes s.toList
      have h := TokenText.string htext
      rwa [hchars, Option.map_some, String.ofList_toList] at h
  | bool b => cases b <;> exact .fixed rfl rfl
  | _ => exact .fixed rfl rfl

theorem tokensText_text (tokens : List Token) {after : List Char} (hafter : Blank after) :
    TokensText tokens (tokens.flatMap Token.text ++ after) := by
  induction tokens with
  | nil => exact .nil hafter
  | cons t tokens ih =>
    rw [List.flatMap_cons, List.append_assoc]
    exact @TokensText.cons t tokens [] _ _ (by simp [Blank]) (tokenText_text t) ih

private theorem TokensText.blank_append {tokens : List Token} {before s : List Char}
    (hbefore : Blank before) (h : TokensText tokens s) : TokensText tokens (before ++ s) := by
  have hblank : ∀ {blanks}, Blank blanks → Blank (before ++ blanks) := by
    intro blanks hblanks c hc
    rcases List.mem_append.mp hc with hc | hc
    · exact hbefore c hc
    · exact hblanks c hc
  cases h with
  | nil hblanks => exact .nil (hblank hblanks)
  | cons hblanks htoken hrest =>
    rw [← List.append_assoc]
    exact .cons (hblank hblanks) htoken hrest

/-- The compact text spells a value, with any blanks around it. -/
theorem Value.spelledBy_text (v : Value) {before after : String} (hbefore : Blank before.toList)
    (hafter : Blank after.toList) : v.SpelledBy (before ++ v.text ++ after) := by
  rw [SpelledBy, String.toList_append, String.toList_append, Value.text, String.toList_ofList,
    List.append_assoc]
  exact (tokensText_text v.tokens hafter).blank_append hbefore

theorem Value.spelledBy_of_text {v : Value} {text : String} (htext : v.text = text) :
    v.SpelledBy text := by
  have hblank : Blank "".toList := by simp [Blank]
  have h := v.spelledBy_text hblank hblank
  rwa [String.empty_append, String.append_empty, htext] at h

end RateGovernor.Json
