import Mathlib
import RateGovernor.Json.Codec
import RateGovernor.Proofs.Json.Lexing

/-!
# Records by name

A record is read from the values of its declared fields and from nothing else: objects may list the
fields in any order and hold any other members between them, and arrays hold the fields alone. What
is missing, repeated or too much is refused. This is shown for every record type at once; a type
only has to decode by way of `Value.fields?`.
-/

namespace RateGovernor.Json

variable {α : Type} {names : List String} {values : List Value}

/-! ### The fields of a value -/

section Fields

open Value

variable {members : List (Option String × Value)}

private theorem member?_eq_none {name : String}
    (h : members.countP (·.1 == some name) ≠ 1) : member? members name = none := by
  rw [member?]
  split
  · rename_i hfilter
    rw [List.countP_eq_length_filter, hfilter] at h
    exact absurd rfl h
  · rfl

private theorem fields?_eq_none {name : String} (hname : name ∈ names)
    (h : members.countP (·.1 == some name) ≠ 1) : (object members).fields? names = none := by
  rw [fields?]
  split
  · induction names with
    | nil => cases hname
    | cons n names ih =>
      rw [List.mapM_cons]
      rcases List.mem_cons.mp hname with rfl | hname
      · rw [member?_eq_none h]
        rfl
      · rw [ih hname]
        cases member? members n <;> rfl
  · rfl

private theorem mapM_member? (hlength : values.length = names.length)
    (h : ∀ field ∈ names.zip values, member? members field.1 = some field.2) :
    names.mapM (member? members) = some values := by
  induction names generalizing values with
  | nil =>
    rw [List.length_eq_zero_iff.mp hlength]
    rfl
  | cons name names ih =>
    obtain ⟨v, values, rfl⟩ := List.exists_cons_of_length_eq_add_one hlength
    rw [List.zip_cons_cons, List.forall_mem_cons] at h
    rw [List.mapM_cons, h.1, ih (Nat.succ.inj hlength) h.2]
    rfl

private theorem filter_zip (hnodup : names.Nodup) {field : String × Value}
    (hfield : field ∈ names.zip values) :
    (names.zip values).filter (fun m => m.1 == field.1) = [field] := by
  induction names generalizing values with
  | nil => simp at hfield
  | cons name names ih =>
    cases values with
    | nil => simp at hfield
    | cons v values =>
      rw [List.nodup_cons] at hnodup
      rw [List.zip_cons_cons] at hfield ⊢
      rcases List.mem_cons.mp hfield with rfl | hlater
      · have hrest : (names.zip values).filter (fun m => m.1 == name) = [] := by
          rw [List.filter_eq_nil_iff]
          intro m hm hname
          exact hnodup.1 (beq_iff_eq.mp hname ▸ (List.of_mem_zip hm).1)
        rw [List.filter_cons_of_pos (by simp), hrest]
      · have hne : name ≠ field.1 := by
          rintro rfl
          exact hnodup.1 (List.of_mem_zip hlater).1
        rw [List.filter_cons_of_neg (by simp [hne]), ih hnodup.2 hlater]

/-- The fields of an object that has each of them once, in any order and between any others. -/
theorem fields?_object (hnodup : names.Nodup) (hlength : values.length = names.length)
    {others members : List (String × Value)} (hothers : ∀ o ∈ others, o.1 ∉ names)
    (hmembers : members.Perm (names.zip values ++ others)) :
    (object (members.map fun m => (some m.1, m.2))).fields? names = some values := by
  have hsome : (members.map fun m => (some m.1, m.2)).all (·.1.isSome) = true := by simp
  rw [fields?, if_pos hsome]
  refine mapM_member? hlength fun field hfield => ?_
  have hnone : others.filter (fun m => m.1 == field.1) = [] := by
    rw [List.filter_eq_nil_iff]
    intro o ho hname
    exact hothers o ho (beq_iff_eq.mp hname ▸ (List.of_mem_zip hfield).1)
  have hfilter : members.filter (fun m => m.1 == field.1) = [field] := by
    have hperm := hmembers.filter (fun m => m.1 == field.1)
    rwa [List.filter_append, filter_zip hnodup hfield, hnone, List.append_nil,
      List.perm_singleton] at hperm
  have hpred : ((fun m : Option String × Value => m.1 == some field.1) ∘
      fun m : String × Value => (some m.1, m.2)) = fun m => m.1 == field.1 := by
    funext m
    simp
  rw [member?, List.filter_map, hpred, hfilter]
  rfl

theorem fields?_record (hnodup : names.Nodup) (hlength : values.length = names.length) :
    (record names values).fields? names = some values := by
  have hmembers : (names.zip values).Perm (names.zip values ++ []) := by rw [List.append_nil]
  have h := fields?_object hnodup hlength (by simp) hmembers
  rw [record, List.zip_map_left]
  exact h

theorem fields?_array (hlength : values.length = names.length) :
    (array values).fields? names = some values := by
  rw [fields?, if_pos hlength]

private theorem fields?_array_eq_none (hlength : values.length ≠ names.length) :
    (array values).fields? names = none := by
  rw [fields?, if_neg hlength]

end Fields

/-! ### Texts of records -/

theorem Value.SpelledBy.ofText?_eq [Codec α] {v : Value} {text : String} (h : v.SpelledBy text) :
    (ofText? text : Option α) = decode? v := by
  rw [ofText?, h.parse?_eq]
  rfl

/-- The texts of a record type are read by the names of the fields alone. What is read is built from
the values of the fields in declaration order. -/
structure ReadByName (α : Type) [Codec α] (names : List String) (build : List Value → Option α) :
    Prop where
  /-- The array of the field values gives what is built from them. -/
  array_eq : ∀ {values : List Value} {text : String}, values.length = names.length →
    (Value.array values).SpelledBy text → ofText? text = build values
  /-- An object with each field once, among any members under other names and in any order, gives
  the same as the array. -/
  object_eq_array : ∀ {values : List Value} {others members : List (String × Value)}
    {text text' : String}, values.length = names.length → (∀ o ∈ others, o.1 ∉ names) →
    members.Perm (names.zip values ++ others) →
    (Value.object (members.map fun m => (some m.1, m.2))).SpelledBy text →
    (Value.array values).SpelledBy text' → (ofText? text : Option α) = ofText? text'
  /-- An object that lacks a field or repeats one is refused. -/
  object_eq_none : ∀ {members : List (Option String × Value)} {name : String} {text : String},
    name ∈ names → members.countP (·.1 == some name) ≠ 1 → (Value.object members).SpelledBy text →
    (ofText? text : Option α) = none
  /-- An array with fewer or more elements than fields is refused. -/
  array_eq_none : ∀ {values : List Value} {text : String}, values.length ≠ names.length →
    (Value.array values).SpelledBy text → (ofText? text : Option α) = none

theorem Codec.readByName [Codec α] {build : List Value → Option α} (hnodup : names.Nodup)
    (hdecode : ∀ v, decode? v = (v.fields? names).bind build) : ReadByName α names build where
  array_eq hlength htext := by
    rw [htext.ofText?_eq, hdecode, fields?_array hlength, Option.bind_some]
  object_eq_array hlength hothers hmembers htext htext' := by
    rw [htext.ofText?_eq, htext'.ofText?_eq, hdecode, hdecode, fields?_array hlength,
      fields?_object hnodup hlength hothers hmembers]
  object_eq_none hname hcount htext := by
    rw [htext.ofText?_eq, hdecode, fields?_eq_none hname hcount, Option.bind_none]
  array_eq_none hlength htext := by
    rw [htext.ofText?_eq, hdecode, fields?_array_eq_none hlength, Option.bind_none]

/-! ### The record types -/

/-- Every record type is read by the names of its fields alone. -/
theorem records_read_by_name :
    ReadByName EstimatorConfig ["history_size", "max_age_ms"] estimatorConfigOf? ∧
    ReadByName BucketConfig ["window_secs", "key_frame_spread_frames"] bucketConfigOf? ∧
    ReadByName EncodingParameters ["max_bitrate_bps", "target_bitrate_bps", "frame_rate_fps"]
      encodingParametersOf? ∧
    ReadByName Report
      ["max_bitrate_bps", "target_bitrate_bps", "configured_frame_rate_fps", "input_frame_rate_fps",
        "frames_queried", "frames_dropped", "frames_encoded", "bytes_encoded", "dropping_enabled"]
      reportOf? ∧
    ReadByName EncodedFrame ["frame_type", "data"] encodedFrameOf? :=
  ⟨Codec.readByName (by decide) fun _ => rfl, Codec.readByName (by decide) fun _ => rfl,
    Codec.readByName (by decide) fun _ => rfl, Codec.readByName (by decide) fun _ => rfl,
    Codec.readByName (by decide) fun _ => rfl⟩

/-- Settings with their fields in reverse, and between and after them members under another name,
one of which holds a field in turn; settings that lack a field or repeat one; and an array that is
too short. -/
theorem records_read_by_name_reversed :
    (ofText? ("\x7b\"max_age_ms\":5,\"x\":[1,\x7b\"max_age_ms\":7\x7d],\"history_size\":3," ++
      "\"x\":null\x7d") : Option EstimatorConfig) = ofText? "[3,5]" ∧
    ofText? "[3,5]" = some (⟨3, 5⟩ : EstimatorConfig) ∧
    (ofText? "\x7b\"history_size\":3,\"x\":5\x7d" : Option EstimatorConfig) = none ∧
    (ofText? "\x7b\"history_size\":3,\"max_age_ms\":5,\"history_size\":3\x7d" :
      Option EstimatorConfig) = none ∧
    (ofText? "[3]" : Option EstimatorConfig) = none := by
  obtain ⟨hread, -⟩ := records_read_by_name
  have hothers : ∀ o ∈ [("x", Value.array [.ofInt 1, .object [(some "max_age_ms", .ofInt 7)]]),
      ("x", .null)], o.1 ∉ ["history_size", "max_age_ms"] := by
    simp
  have hmembers := (@List.perm_append_comm _ [("max_age_ms", Value.ofInt 5),
    ("x", .array [.ofInt 1, .object [(some "max_age_ms", .ofInt 7)]])]
      [("history_size", .ofInt 3)]).append_right [("x", .null)]
  have harray : (Value.array [.ofInt 3, .ofInt 5]).SpelledBy "[3,5]" :=
    Value.spelledBy_of_text (by decide +kernel)
  have hlacking : (Value.object [(some "history_size", .ofInt 3), (some "x", .ofInt 5)]).SpelledBy
      "\x7b\"history_size\":3,\"x\":5\x7d" := Value.spelledBy_of_text (by decide +kernel)
  have hrepeating : (Value.object [(some "history_size", .ofInt 3), (some "max_age_ms", .ofInt 5),
      (some "history_size", .ofInt 3)]).SpelledBy
        "\x7b\"history_size\":3,\"max_age_ms\":5,\"history_size\":3\x7d" :=
    Value.spelledBy_of_text (by decide +kernel)
  have hshort : (Value.array [.ofInt 3]).SpelledBy "[3]" :=
    Value.spelledBy_of_text (by decide +kernel)
  refine ⟨?_, ?_, ?_, ?_, ?_⟩
  · exact hread.object_eq_array rfl hothers hmembers (Value.spelledBy_of_text (by decide +kernel))
      harray
  · rw [hread.array_eq rfl harray]
    decide +kernel
  · exact hread.object_eq_none (by decide : "max_age_ms" ∈ _) (by decide) hlacking
  · exact hread.object_eq_none (by decide : "history_size" ∈ _) (by decide) hrepeating
  · exact hread.array_eq_none (by decide) hshort

end RateGovernor.Json
