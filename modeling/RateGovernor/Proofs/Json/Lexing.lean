import Mathlib
import RateGovernor.Json.RoundTrip
import RateGovernor.Proofs.Json.Grammar

/-!
# Reading what the grammar spells

Each reader takes the whole text of its item and no more. Only a numeral could go on with what
follows it, so a text is read back if no two numerals stand side by side; between the tokens of a
value there is always a token of another kind. With the reading machine this gives the main result:
every text of a value is read as that value.
-/

namespace RateGovernor.Json

variable {s rest : List Char}

/-! ### Numerals -/

/-- What follows cannot belong to a run of digits. -/
def EndsDigits (rest : List Char) : Prop := ∀ c ∈ rest.head?, c.isDigit = false

/-- What follows cannot belong to a fraction, nor start one. -/
def EndsFraction (rest : List Char) : Prop := ∀ c ∈ rest.head?, c.isDigit = false ∧ c ≠ '.'

/-- What follows cannot belong to a numeral. -/
def EndsNumeral (rest : List Char) : Prop :=
  ∀ c ∈ rest.head?, c.isDigit = false ∧ c ≠ '.' ∧ c ≠ 'e' ∧ c ≠ 'E'

private theorem EndsFraction.endsDigits (h : EndsFraction rest) : EndsDigits rest :=
  fun c hc => (h c hc).1

private theorem EndsNumeral.endsFraction (h : EndsNumeral rest) : EndsFraction rest :=
  fun c hc => ⟨(h c hc).1, (h c hc).2.1⟩

private theorem ExponentText.endsFraction {exponent : Option Int} (h : ExponentText exponent s)
    (hrest : EndsNumeral rest) : EndsFraction (s ++ rest) := by
  have hletter : ∀ {letter : Char} {s : List Char}, letter = 'e' ∨ letter = 'E' →
      EndsFraction (letter :: s) := by
    rintro letter s (rfl | rfl) c hc
    · cases hc
      decide
    · cases hc
      decide
  cases h with
  | absent => exact hrest.endsFraction
  | unsigned h _ _ => exact hletter h
  | plus h _ _ => exact hletter h
  | minus h _ _ => exact hletter h

section Digits

variable {digits : List Char} (hdigits : ∀ c ∈ digits, c.isDigit = true)
  (hrest : EndsDigits rest)

include hdigits hrest

private theorem takeWhile_digits : (digits ++ rest).takeWhile Char.isDigit = digits := by
  rw [List.takeWhile_append_of_pos hdigits]
  cases rest with
  | nil => simp
  | cons c rest =>
    have hc : c.isDigit = false := hrest c rfl
    rw [List.takeWhile_cons_of_neg (by simp [hc]), List.append_nil]

private theorem dropWhile_digits : (digits ++ rest).dropWhile Char.isDigit = rest := by
  rw [List.dropWhile_append_of_pos hdigits]
  cases rest with
  | nil => rfl
  | cons c rest =>
    have hc : c.isDigit = false := hrest c rfl
    rw [List.dropWhile_cons_of_neg (by simp [hc])]

end Digits

private theorem toDigits_ne_zero_cons (n : Nat) (c : Char) (cs : List Char) :
    Nat.toDigits 10 n ≠ '0' :: c :: cs := by
  induction n using Nat.strongRecOn generalizing c cs with
  | ind n ih =>
    rw [Nat.toDigits_eq_if (by decide)]
    split
    · simp
    · rename_i hlarge
      intro h
      cases hhead : Nat.toDigits 10 (n / 10) with
      | nil => exact Nat.toDigits_ne_nil hhead
      | cons d ds =>
        rw [hhead, List.cons_append, List.cons.injEq] at h
        obtain ⟨rfl, -⟩ := h
        cases ds with
        | cons d' ds' => exact ih _ (by omega) _ _ hhead
        | nil =>
          have hzero : n / 10 = 0 := by
            have hvalue := Nat.ofDigitChars_ten_toDigits (n := n / 10)
            rw [hhead] at hvalue
            exact hvalue.symm
          omega

private theorem readWhole_toDigits (n : Nat) (hrest : EndsDigits rest) :
    readWhole (Nat.toDigits 10 n ++ rest) = some (n, rest) := by
  have hdigits : ∀ c ∈ Nat.toDigits 10 n, c.isDigit = true := fun c hc =>
    Nat.isDigit_of_mem_toDigits (by decide) (by decide) hc
  rw [readWhole, takeWhile_digits hdigits hrest, dropWhile_digits hdigits hrest]
  split
  · rename_i h
    exact absurd h Nat.toDigits_ne_nil
  · rename_i h
    exact absurd h (toDigits_ne_zero_cons n _ _)
  · rw [Nat.ofDigitChars_ten_toDigits]

private theorem ofNat_digitChar :
    ∀ d : Digit, Digit.ofNat ((Nat.digitChar d.val).toNat - '0'.toNat) = d := by
  decide

/-- The text of the digits after the point, with the point. -/
def fractionText (fraction : List Digit) : List Char :=
  if fraction.isEmpty then [] else '.' :: fraction.map fun d => Nat.digitChar d.val

private theorem endsDigits_fractionText (fraction : List Digit) (hrest : EndsFraction rest) :
    EndsDigits (fractionText fraction ++ rest) := by
  cases fraction with
  | nil => exact hrest.endsDigits
  | cons d ds =>
    intro c hc
    cases hc
    decide

private theorem readFraction_text (fraction : List Digit) (hrest : EndsFraction rest) :
    readFraction (fractionText fraction ++ rest) = some (fraction, rest) := by
  cases fraction with
  | nil =>
    rw [fractionText, List.isEmpty_nil, if_pos rfl, List.nil_append, readFraction.eq_def]
    split
    · exact absurd rfl (hrest '.' rfl).2
    · rfl
  | cons d ds =>
    have hdigits : ∀ c ∈ (d :: ds).map fun d => Nat.digitChar d.val, c.isDigit = true := by
      intro c hc
      obtain ⟨d, -, rfl⟩ := List.mem_map.mp hc
      rw [Nat.isDigit_digitChar]
      exact decide_eq_true d.isLt
    rw [fractionText, List.isEmpty_cons, if_neg Bool.false_ne_true, List.cons_append, readFraction,
      takeWhile_digits hdigits hrest.endsDigits, dropWhile_digits hdigits hrest.endsDigits]
    simp only [List.map_cons, List.map_map, Function.comp_def, ofNat_digitChar, List.map_id']

private theorem readSign_of_isDigit {c : Char} (hc : c.isDigit = true) (s : List Char) :
    readSign (c :: s) = (false, c :: s) := by
  have hminus : c ≠ '-' := by
    rintro rfl
    exact absurd hc (by decide)
  have hplus : c ≠ '+' := by
    rintro rfl
    exact absurd hc (by decide)
  simp [readSign, hminus, hplus]

private theorem readExponent_of_sign {letter : Char} {body digits : List Char} {negative : Bool}
    (hletter : letter = 'e' ∨ letter = 'E') (hne : digits ≠ [])
    (hdigits : ∀ c ∈ digits, c.isDigit = true) (hrest : EndsDigits rest)
    (hsign : readSign body = (negative, digits ++ rest)) :
    readExponent (letter :: body) =
      some (some (if negative then -(Nat.ofDigitChars 10 digits 0 : Int)
        else Nat.ofDigitChars 10 digits 0), rest) := by
  rw [readExponent, if_pos hletter, hsign]
  simp only [takeWhile_digits hdigits hrest, dropWhile_digits hdigits hrest]

private theorem readExponent_text {exponent : Option Int} (h : ExponentText exponent s)
    (hrest : EndsNumeral rest) : readExponent (s ++ rest) = some (exponent, rest) := by
  have hends := hrest.endsFraction.endsDigits
  cases h with
  | absent =>
    cases rest with
    | nil => rfl
    | cons c rest =>
      obtain ⟨-, -, hlower, hupper⟩ := hrest c rfl
      simp [readExponent, hlower, hupper]
  | @unsigned letter digits hletter hne hdigits =>
    have hsign : readSign (digits ++ rest) = (false, digits ++ rest) := by
      cases digits with
      | nil => exact absurd rfl hne
      | cons d ds => exact readSign_of_isDigit (hdigits d List.mem_cons_self) _
    exact readExponent_of_sign hletter hne hdigits hends hsign
  | @plus letter digits hletter hne hdigits =>
    have hsign : readSign ('+' :: (digits ++ rest)) = (false, digits ++ rest) := rfl
    exact readExponent_of_sign hletter hne hdigits hends hsign
  | @minus letter digits hletter hne hdigits =>
    have hsign : readSign ('-' :: (digits ++ rest)) = (true, digits ++ rest) := rfl
    exact readExponent_of_sign hletter hne hdigits hends hsign

private theorem readMagnitude_text (n : Numeral) {exponent : List Char}
    (hexponent : ExponentText n.exponent exponent) (hrest : EndsNumeral rest) :
    readMagnitude n.negative
      (Nat.toDigits 10 n.whole ++ (fractionText n.fraction ++ (exponent ++ rest))) =
        some (n, rest) := by
  have hfraction := hexponent.endsFraction hrest
  rw [readMagnitude, readWhole_toDigits _ (endsDigits_fractionText _ hfraction)]
  simp only [Option.bind_eq_bind, Option.bind_some]
  rw [readFraction_text _ hfraction, Option.bind_some, readExponent_text hexponent hrest]
  rfl

theorem readNumeral_text {n : Numeral} (h : NumeralText n s) (hrest : EndsNumeral rest) :
    readNumeral (s ++ rest) = some (n, rest) := by
  obtain ⟨exponent, hexponent, rfl⟩ := h
  have hmagnitude := readMagnitude_text n hexponent hrest
  obtain ⟨negative, whole, fraction, power⟩ := n
  cases negative with
  | true =>
    simpa [Numeral.text, fractionText, readNumeral] using hmagnitude
  | false =>
    obtain ⟨d, ds, hdigits⟩ :=
      List.exists_cons_of_ne_nil (Nat.toDigits_ne_nil (n := whole) (b := 10))
    have hdigit : d.isDigit = true :=
      Nat.isDigit_of_mem_toDigits (b := 10) (n := whole) (by decide) (by decide) (by simp [hdigits])
    have hminus : d ≠ '-' := by
      rintro rfl
      exact absurd hdigit (by decide)
    simp only [hdigits] at hmagnitude
    simpa [Numeral.text, fractionText, readNumeral, hdigits, hminus] using hmagnitude

/-! ### Strings -/

private theorem readPieces_text {pieces : List Piece} (h : PiecesText pieces s) (rest : List Char) :
    readPieces (s ++ '"' :: rest) = some (pieces, rest) := by
  induction h with
  | nil => rfl
  | @plain c pieces s hquote hslash hprintable _ ih =>
    have hcontrol : ¬ c.toNat < 32 := Nat.not_lt.mpr hprintable
    rw [List.cons_append, readPieces.eq_def]
    simp [hslash, hcontrol, ih]
  | @escaped letter c pieces s hletter _ ih =>
    have hu : letter ≠ 'u' := by
      rintro rfl
      cases hletter
    rw [List.cons_append, List.cons_append, readPieces]
    · simp [hletter, ih]
    · simp [hu]
  | @numbered a b c d u pieces s hunit _ ih =>
    simp [readPieces, hunit, ih]

/-! ### Tokens -/

private theorem NumeralText.exists_head {n : Numeral} (h : NumeralText n s) :
    ∃ c cs, s = c :: cs ∧ (c = '-' ∨ c.isDigit = true) := by
  obtain ⟨exponent, -, rfl⟩ := h
  obtain ⟨d, ds, hdigits⟩ :=
    List.exists_cons_of_ne_nil (Nat.toDigits_ne_nil (n := n.whole) (b := 10))
  have hdigit : d.isDigit = true :=
    Nat.isDigit_of_mem_toDigits (b := 10) (n := n.whole) (by decide) (by decide) (by simp [hdigits])
  cases n.negative with
  | true => exact ⟨'-', _, by simp [Numeral.text]; rfl, .inl rfl⟩
  | false => exact ⟨d, _, by simp [Numeral.text, hdigits]; rfl, .inr hdigit⟩

private theorem readToken_numeral {c : Char} (hc : c = '-' ∨ c.isDigit = true) {n : Numeral}
    (h : readNumeral (c :: s) = some (n, rest)) : readToken (c :: s) = some (.number n, rest) := by
  rw [readToken.eq_def]
  split
  case h_11 => rw [h]; rfl
  all_goals
    rename_i heq
    cases heq
    exact absurd hc (by decide)

private theorem readToken_text {t : Token} (h : TokenText t s)
    (hrest : t.isNumber → EndsNumeral rest) :
    readToken (s ++ rest) = some (t, rest) := by
  cases h with
  | number hnumeral =>
    obtain ⟨c, cs, rfl, hc⟩ := hnumeral.exists_head
    exact readToken_numeral hc (readNumeral_text hnumeral (hrest rfl))
  | string hpieces =>
    have h := readPieces_text hpieces rest
    simp [readToken, h]
  | fixed hnumber hstring =>
    cases t with
    | number n => cases hnumber
    | string s => cases hstring
    | bool b => cases b <;> rfl
    | _ => rfl

private theorem not_blank_of_numeral {c : Char} (hc : c = '-' ∨ c.isDigit = true) :
    isBlank c = false := by
  apply Bool.eq_false_of_not_eq_true
  intro hblank
  simp only [isBlank, Bool.or_eq_true, beq_iff_eq] at hblank
  rcases hblank with ((rfl | rfl) | rfl) | rfl <;> exact absurd hc (by decide)

/-- A token starts with no blank, and unless it is a numeral with nothing that goes on with one. -/
private theorem TokenText.exists_head {t : Token} (h : TokenText t s) :
    ∃ c cs, s = c :: cs ∧ isBlank c = false ∧
      (t.isNumber = false → EndsNumeral (c :: cs)) := by
  cases h with
  | number hnumeral =>
    obtain ⟨c, cs, rfl, hc⟩ := hnumeral.exists_head
    exact ⟨c, cs, rfl, not_blank_of_numeral hc, fun h => by cases h⟩
  | string hpieces => exact ⟨_, _, rfl, by decide, fun _ => by simp [EndsNumeral]⟩
  | fixed hnumber hstring =>
    cases t with
    | number n => cases hnumber
    | string s => cases hstring
    | bool b => cases b <;> exact ⟨_, _, rfl, by decide, fun _ => by simp [EndsNumeral]⟩
    | _ => exact ⟨_, _, rfl, by decide, fun _ => by simp [EndsNumeral]⟩

/-! ### Texts -/

private theorem lex_blanks {blanks : List Char} (h : Blank blanks) (s : List Char) :
    lex (blanks ++ s) = lex s := by
  induction blanks with
  | nil => rfl
  | cons c blanks ih =>
    rw [List.cons_append, lex, if_pos (h c List.mem_cons_self)]
    exact ih fun d hd => h d (List.mem_cons_of_mem _ hd)

private theorem lex_token {c : Char} {t : Token} (hc : isBlank c = false)
    (h : readToken (c :: s) = some (t, rest)) : lex (c :: s) = (lex rest).map (t :: ·) := by
  rw [lex, if_neg (by simp [hc])]
  split
  · rename_i hnone
    rw [h] at hnone
    cases hnone
  · rename_i hsome
    rw [h] at hsome
    cases hsome
    rfl

/-- Two tokens can stand side by side without blanks between them. -/
def Token.Apart (t u : Token) : Prop := t.isNumber = true → u.isNumber = false

private theorem TokensText.endsNumeral {tokens : List Token} (h : TokensText tokens s)
    (hhead : ∀ t ∈ tokens.head?, t.isNumber = false) : EndsNumeral s := by
  have hblank : ∀ {c : Char} {cs : List Char}, isBlank c = true → EndsNumeral (c :: cs) := by
    intro c cs hc
    simp only [isBlank, Bool.or_eq_true, beq_iff_eq] at hc
    rcases hc with ((rfl | rfl) | rfl) | rfl <;> simp [EndsNumeral]
  cases h with
  | nil hblanks =>
    cases s with
    | nil => simp [EndsNumeral]
    | cons c s => exact hblank (hblanks c List.mem_cons_self)
  | @cons t tokens blanks s rest hblanks htoken _ =>
    cases blanks with
    | cons c blanks => exact hblank (hblanks c List.mem_cons_self)
    | nil =>
      obtain ⟨c, cs, rfl, -, hends⟩ := htoken.exists_head
      exact hends (hhead t rfl)

theorem lex_text {tokens : List Token} (h : TokensText tokens s)
    (hapart : tokens.IsChain Token.Apart) : lex s = some tokens := by
  induction h with
  | @nil blanks hblanks =>
    rw [← List.append_nil blanks, lex_blanks hblanks, lex]
  | @cons t tokens blanks s rest hblanks htoken hrest ih =>
    rw [List.isChain_cons] at hapart
    obtain ⟨hnext, hapart⟩ := hapart
    have hends : t.isNumber → EndsNumeral rest := fun ht =>
      hrest.endsNumeral fun u hu => hnext u hu ht
    have hread := readToken_text htoken hends
    obtain ⟨c, cs, rfl, hc, -⟩ := htoken.exists_head
    rw [List.cons_append] at hread
    rw [lex_blanks hblanks, List.cons_append, lex_token hc hread, ih hapart, Option.map_some]

/-! ### Values -/

private theorem isChain_cons_of_not_number {t : Token} {tokens : List Token}
    (ht : t.isNumber = false)
    (h : tokens.IsChain Token.Apart) : (t :: tokens).IsChain Token.Apart := by
  rw [List.isChain_cons]
  refine ⟨fun u _ hnumber => ?_, h⟩
  rw [ht] at hnumber
  cases hnumber

/-- No numeral comes first. -/
def Punctuated (tokens : List Token) : Prop := ∀ t ∈ tokens.head?, t.isNumber = false

private theorem punctuated_itemTokens (items : List Value) (after : List Token) :
    Punctuated (itemTokens items ++ after) := by
  cases items <;> simp [Punctuated, itemTokens, Token.isNumber]

private theorem punctuated_memberTokens (members : List (Option String × Value))
    (after : List Token) :
    Punctuated (memberTokens members ++ after) := by
  cases members <;> simp [Punctuated, memberTokens, Token.isNumber]

mutual

/-- The tokens of a value, followed by no numeral, are spelled without gluing two together. -/
private theorem isChain_tokens_append (v : Value) {after : List Token}
    (h : after.IsChain Token.Apart)
    (hafter : Punctuated after) : (v.tokens ++ after).IsChain Token.Apart := by
  match v with
  | .null => exact isChain_cons_of_not_number rfl h
  | .bool b => exact isChain_cons_of_not_number rfl h
  | .number n => exact List.isChain_cons.mpr ⟨fun t ht _ => hafter t ht, h⟩
  | .string s => exact isChain_cons_of_not_number rfl h
  | .array [] => exact isChain_cons_of_not_number rfl (isChain_cons_of_not_number rfl h)
  | .array (v :: items) =>
    rw [Value.tokens, List.cons_append, List.append_assoc]
    exact isChain_cons_of_not_number rfl
      (isChain_tokens_append v (isChain_itemTokens_append items h) (punctuated_itemTokens _ _))
  | .object [] => exact isChain_cons_of_not_number rfl (isChain_cons_of_not_number rfl h)
  | .object ((name, v) :: members) =>
    rw [Value.tokens, List.cons_append, List.cons_append, List.cons_append, List.append_assoc]
    exact isChain_cons_of_not_number rfl (isChain_cons_of_not_number rfl
      (isChain_cons_of_not_number rfl (isChain_tokens_append v
        (isChain_memberTokens_append members h) (punctuated_memberTokens _ _))))

private theorem isChain_itemTokens_append (items : List Value) {after : List Token}
    (h : after.IsChain Token.Apart) : (itemTokens items ++ after).IsChain Token.Apart := by
  match items with
  | [] => exact isChain_cons_of_not_number rfl h
  | v :: items =>
    rw [itemTokens, List.cons_append, List.append_assoc]
    exact isChain_cons_of_not_number rfl
      (isChain_tokens_append v (isChain_itemTokens_append items h) (punctuated_itemTokens _ _))

private theorem isChain_memberTokens_append (members : List (Option String × Value))
    {after : List Token}
    (h : after.IsChain Token.Apart) : (memberTokens members ++ after).IsChain Token.Apart := by
  match members with
  | [] => exact isChain_cons_of_not_number rfl h
  | (name, v) :: members =>
    rw [memberTokens, List.cons_append, List.cons_append, List.cons_append, List.append_assoc]
    exact isChain_cons_of_not_number rfl (isChain_cons_of_not_number rfl
      (isChain_cons_of_not_number rfl (isChain_tokens_append v
        (isChain_memberTokens_append members h) (punctuated_memberTokens _ _))))

end

/-- Every text of a value is read as that value. -/
theorem Value.SpelledBy.parse?_eq {v : Value} {text : String} (h : v.SpelledBy text) :
    Value.parse? text = some v := by
  have hchain : v.tokens.IsChain Token.Apart := by
    have h : (v.tokens ++ []).IsChain Token.Apart :=
      isChain_tokens_append v .nil (by simp [Punctuated])
    rwa [List.append_nil] at h
  rw [Value.parse?, lex_text h hchain]
  exact v.ofTokens?_tokens

end RateGovernor.Json
