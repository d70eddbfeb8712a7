import Mathlib
import RateGovernor.Proofs.Json.Records

/-!
# Values that read back

A type is lawful if its values are read back from their JSON forms. Integers, switches, bytes and
frame kinds are, and so are records of them: a record is read from its own object field by field.
Between a form and its text nothing is lost, so the text of a lawful value reads back as well, with
any blanks around it.
-/

namespace RateGovernor.Json

/-- A type whose values are read back from their JSON forms. -/
class LawfulCodec (α : Type) [Codec α] : Prop where
  decode?_encode (a : α) : decode? (encode a) = some a

export LawfulCodec (decode?_encode)

attribute [simp] decode?_encode

/-! ### Integers -/

private theorem integer?_ofInt (n : Int) : (Numeral.ofInt n).integer? = some n := by
  have hwhole : (Numeral.ofInt n).isWhole = true := rfl
  have hsign : ¬ (decide (n < 0) = true ∧ n.natAbs = 0) := by
    rw [decide_eq_true_iff]
    omega
  rw [Numeral.integer?, if_pos ⟨hwhole, hsign⟩]
  simp only [Numeral.ofInt, signed, decide_eq_true_eq, Option.some.injEq]
  omega

private theorem Value.integer?_ofInt {low high n : Int} (hlow : low ≤ n) (hhigh : n ≤ high) :
    (Value.ofInt n).integer? low high = some n := by
  rw [Value.ofInt, Value.integer?, Json.integer?_ofInt, Option.filter_some, if_pos]
  rw [decide_eq_true_iff]
  exact ⟨hlow, hhigh⟩

private theorem Value.integer?_ofNat {size n : Nat} (h : n < size) :
    (Value.ofInt (n : Int)).integer? 0 ((size : Int) - 1) = some (n : Int) :=
  Value.integer?_ofInt (by omega) (by omega)

instance : LawfulCodec Bool where
  decode?_encode _ := rfl

instance : LawfulCodec UInt8 where
  decode?_encode n := by
    change Option.map _ ((Value.ofInt n.toNat).integer? 0 (UInt8.size - 1)) = _
    rw [Value.integer?_ofNat n.toNat_lt_size, Option.map_some, Int.toNat_natCast, UInt8.ofNat_toNat]

instance : LawfulCodec UInt32 where
  decode?_encode n := by
    change Option.map _ ((Value.ofInt n.toNat).integer? 0 (UInt32.size - 1)) = _
    rw [Value.integer?_ofNat n.toNat_lt_size, Option.map_some, Int.toNat_natCast,
      UInt32.ofNat_toNat]

instance : LawfulCodec UInt64 where
  decode?_encode n := by
    change Option.map _ ((Value.ofInt n.toNat).integer? 0 (UInt64.size - 1)) = _
    rw [Value.integer?_ofNat n.toNat_lt_size, Option.map_some, Int.toNat_natCast,
      UInt64.ofNat_toNat]

instance : LawfulCodec Int32 where
  decode?_encode n := by
    change Option.map _ ((Value.ofInt n.toInt).integer? _ _) = _
    rw [Value.integer?_ofInt n.minValue_le_toInt n.toInt_le, Option.map_some, Int32.ofInt_toInt]

instance : LawfulCodec Int64 where
  decode?_encode n := by
    change Option.map _ ((Value.ofInt n.toInt).integer? _ _) = _
    rw [Value.integer?_ofInt n.minValue_le_toInt n.toInt_le, Option.map_some, Int64.ofInt_toInt]

/-! ### Frames and settings -/

private theorem mapM_decode?_encode {α : Type} [Codec α] [LawfulCodec α] (items : List α) :
    (items.map encode).mapM (decode? : Value → Option α) = some items := by
  induction items with
  | nil => rfl
  | cons a items ih =>
    rw [List.map_cons, List.mapM_cons, decode?_encode, ih]
    rfl

instance : LawfulCodec (List UInt8) where
  decode?_encode bytes := mapM_decode?_encode bytes

instance : LawfulCodec FrameKind where
  decode?_encode k := by cases k <;> decide

instance : LawfulCodec EncodedFrame where
  decode?_encode f := by
    change ((Value.record ["frame_type", "data"] [encode f.kind, encode f.data]).fields?
      ["frame_type", "data"]).bind encodedFrameOf? = _
    rw [fields?_record (by decide) rfl]
    simp [encodedFrameOf?]

instance : LawfulCodec EstimatorConfig where
  decode?_encode c := by
    change ((Value.record ["history_size", "max_age_ms"]
      [encode c.historySize, encode c.maxAge]).fields? ["history_size", "max_age_ms"]).bind
        estimatorConfigOf? = _
    rw [fields?_record (by decide) rfl]
    simp [estimatorConfigOf?]

/-! ### Texts -/

section Texts

variable {α : Type} [Codec α]

theorem ofText?_toText (a : α) {before after : String} (hbefore : Blank before.toList)
    (hafter : Blank after.toList) :
    ofText? (before ++ toText a ++ after) = (decode? (encode a) : Option α) :=
  ((encode a).spelledBy_text hbefore hafter).ofText?_eq

theorem ofText?_toText_self (a : α) : ofText? (toText a) = (decode? (encode a) : Option α) :=
  (Value.spelledBy_of_text rfl).ofText?_eq

theorem toText_injective [LawfulCodec α] : Function.Injective (toText : α → String) := by
  intro a b h
  have ha := ofText?_toText_self a
  rw [h, ofText?_toText_self, decode?_encode, decode?_encode] at ha
  exact (Option.some.inj ha).symm

end Texts

/-- Estimator settings, frame kinds and encoded frames of any size are read back from their texts,
with any blanks before and after them, and so no two of them share a text. -/
theorem settings_and_frames_read_back {before after : String} (hbefore : Blank before.toList)
    (hafter : Blank after.toList) :
    (∀ c : EstimatorConfig, ofText? (before ++ toText c ++ after) = some c) ∧
    (∀ k : FrameKind, ofText? (before ++ toText k ++ after) = some k) ∧
    (∀ f : EncodedFrame, ofText? (before ++ toText f ++ after) = some f) ∧
    Function.Injective (toText : EstimatorConfig → String) ∧
    Function.Injective (toText : FrameKind → String) ∧
    Function.Injective (toText : EncodedFrame → String) := by
  refine ⟨fun c => ?_, fun k => ?_, fun f => ?_, toText_injective, toText_injective,
    toText_injective⟩
  · rw [ofText?_toText c hbefore hafter, decode?_encode]
  · rw [ofText?_toText k hbefore hafter, decode?_encode]
  · rw [ofText?_toText f hbefore hafter, decode?_encode]

/-- The greatest history and the least age, and a key frame of two bytes, between blanks. -/
theorem settings_and_frames_read_back_limits :
    Blank " \t".toList ∧ Blank "\r\n".toList ∧
    toText (⟨18446744073709551615, -9223372036854775808⟩ : EstimatorConfig) =
      "\x7b\"history_size\":18446744073709551615,\"max_age_ms\":-9223372036854775808\x7d" ∧
    ofText? (" \t" ++ toText (⟨18446744073709551615, -9223372036854775808⟩ : EstimatorConfig) ++
      "\r\n") = some (⟨18446744073709551615, -9223372036854775808⟩ : EstimatorConfig) ∧
    ofText? (" \t" ++ toText (⟨.key, [0, 255]⟩ : EncodedFrame) ++ "\r\n") =
      some (⟨.key, [0, 255]⟩ : EncodedFrame) := by
  have hbefore : Blank " \t".toList := by
    have htext : " \t".toList = [' ', '\t'] := rfl
    simp [htext, Blank, isBlank]
  have hafter : Blank "\r\n".toList := by
    have htext : "\r\n".toList = ['\r', '\n'] := rfl
    simp [htext, Blank, isBlank]
  obtain ⟨hconfig, -, hframe, -⟩ := settings_and_frames_read_back hbefore hafter
  exact ⟨hbefore, hafter, by decide +kernel, hconfig _, hframe _⟩

end RateGovernor.Json
