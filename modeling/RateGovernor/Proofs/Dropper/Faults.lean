import Mathlib
import RateGovernor.Proofs.Dropper.Calls

/-!
# Interrupted calls

A recorder with faults stands for a dropper some of whose calls fail. A sequence of calls then
either completes, and the dropper behind the recorder is where it would be without the faults, or it
stops at a fault, and that dropper has seen exactly the calls before it.
-/

namespace RateGovernor

variable {σ : Type} [Dropper σ]

private theorem Dropper.callAll_cons_eq_ok {verdict verdict' : Bool} {c : Call} {rest : List Call}
    {s s' : σ} (h : callAll verdict (c :: rest) s = .ok verdict' s') :
    ∃ answer next, call verdict c s = .ok answer next ∧
      callAll answer rest next = .ok verdict' s' := by
  rw [callAll, List.foldlM_cons] at h
  exact bind_eq_ok h

theorem Dropper.callAll_cons_of_ok {verdict answer : Bool} {c : Call} {s next : σ}
    (h : call verdict c s = .ok answer next) (rest : List Call) :
    callAll verdict (c :: rest) s = callAll answer rest next := by
  rw [callAll, List.foldlM_cons, bind_of_ok h]
  rfl

private theorem Dropper.callAll_cons_of_error {verdict : Bool} {c : Call} {s next : σ}
    {e : Interruption} (h : call verdict c s = .error e next) (rest : List Call) :
    callAll verdict (c :: rest) s = .error e next := by
  rw [callAll, List.foldlM_cons, bind_of_error h]

/-- Every call keeps a property of the dropper, whether it completes or not. -/
def Dropper.Keeps (P : σ → Prop) : Prop :=
  ∀ verdict c s, P s → match call verdict c s with
    | .ok _ s' => P s'
    | .error _ s' => P s'

theorem Dropper.Keeps.callAll {P : σ → Prop} (hkeeps : Keeps P) (verdict : Bool)
    (calls : List Call) {s : σ} (hs : P s) :
    match Dropper.callAll verdict calls s with
    | .ok _ s' => P s'
    | .error _ s' => P s' := by
  induction calls generalizing verdict s with
  | nil => exact hs
  | cons c rest ih =>
    have hcall := hkeeps verdict c s hs
    cases hc : call verdict c s with
    | ok answer next =>
      rw [hc] at hcall
      rw [callAll_cons_of_ok hc]
      exact ih answer hcall
    | error e next =>
      rw [hc] at hcall
      rw [callAll_cons_of_error hc]
      exact hcall

namespace Recorder

variable {verdict verdict' : Bool} {c : Call} {calls : List Call} {r r' : Recorder σ}
  {e : Interruption}

theorem call_of_ok {inner : σ} (h : r.calls.length ∉ r.faults)
    (hinner : Dropper.call verdict c r.inner = .ok verdict' inner) :
    Dropper.call verdict c r = .ok verdict' ⟨inner, r.calls ++ [c], r.faults⟩ := by
  cases c with
  | perform command =>
    obtain ⟨a, next, hcall, hreturn⟩ := bind_eq_ok hinner
    cases hreturn
    have hpass : Dropper.perform command r =
        .ok () ⟨inner, r.calls ++ [.perform command], r.faults⟩ := by
      simp [Dropper.perform, pass, h, hcall]
    exact bind_of_ok hpass _
  | shouldDrop =>
    change Dropper.shouldDrop r.inner = _ at hinner
    simp [Dropper.call, Dropper.shouldDrop, pass, h, hinner]

theorem call_of_error {inner : σ} (h : r.calls.length ∉ r.faults)
    (hinner : Dropper.call verdict c r.inner = .error e inner) :
    Dropper.call verdict c r = .error e ⟨inner, r.calls ++ [c], r.faults⟩ := by
  cases c with
  | perform command =>
    cases hcall : Dropper.perform command r.inner with
    | ok a next =>
      rw [Dropper.call, bind_of_ok hcall] at hinner
      cases hinner
    | error e' next =>
      rw [Dropper.call, bind_of_error hcall] at hinner
      cases hinner
      have hpass : Dropper.perform command r =
          .error e ⟨inner, r.calls ++ [.perform command], r.faults⟩ := by
        simp [Dropper.perform, pass, h, hcall]
      exact bind_of_error hpass _
  | shouldDrop =>
    change Dropper.shouldDrop r.inner = _ at hinner
    simp [Dropper.call, Dropper.shouldDrop, pass, h, hinner]

private theorem call_of_fault (h : r.calls.length ∈ r.faults) :
    Dropper.call verdict c r = .error {} ⟨r.inner, r.calls ++ [c], r.faults⟩ := by
  cases c with
  | perform command =>
    have hpass : Dropper.perform command r =
        .error {} ⟨r.inner, r.calls ++ [.perform command], r.faults⟩ := by
      simp [Dropper.perform, pass, h]
    exact bind_of_error hpass _
  | shouldDrop => simp [Dropper.call, Dropper.shouldDrop, pass, h]

private theorem call_inner (h : Dropper.call verdict c r = .ok verdict' r') :
    Dropper.call verdict c r.inner = .ok verdict' r'.inner := by
  by_cases hfault : r.calls.length ∈ r.faults
  · rw [call_of_fault hfault] at h
    cases h
  · cases hinner : Dropper.call verdict c r.inner with
    | ok answer inner =>
      rw [call_of_ok hfault hinner] at h
      cases h
      rfl
    | error e inner =>
      rw [call_of_error hfault hinner] at h
      cases h

private theorem calls_of_call (verdict : Bool) (c : Call) (r : Recorder σ) :
    match Dropper.call verdict c r with
    | .ok _ r' => r'.calls = r.calls ++ [c]
    | .error _ r' => r'.calls = r.calls ++ [c] := by
  by_cases hfault : r.calls.length ∈ r.faults
  · rw [call_of_fault hfault]
  · cases hinner : Dropper.call verdict c r.inner with
    | ok answer inner => rw [call_of_ok hfault hinner]
    | error e inner => rw [call_of_error hfault hinner]

/-- The calls noted are the first ones of those to be made; the very first one is always among
them. -/
theorem calls_of_callAll (verdict : Bool) (calls : List Call) (r : Recorder σ) :
    ∃ made, made <+: calls ∧ made.head? = calls.head? ∧
      match Dropper.callAll verdict calls r with
      | .ok _ r' => r'.calls = r.calls ++ made
      | .error _ r' => r'.calls = r.calls ++ made := by
  induction calls generalizing verdict r with
  | nil => exact ⟨[], List.prefix_rfl, rfl, (List.append_nil _).symm⟩
  | cons c rest ih =>
    have hfirst := calls_of_call verdict c r
    cases hcall : Dropper.call verdict c r with
    | ok answer next =>
      rw [hcall] at hfirst
      obtain ⟨made, hmost, -, hmade⟩ := ih answer next
      refine ⟨c :: made, (List.prefix_cons_inj c).mpr hmost, rfl, ?_⟩
      rw [Dropper.callAll_cons_of_ok hcall]
      rw [hfirst, List.append_assoc, List.singleton_append] at hmade
      exact hmade
    | error e next =>
      rw [hcall] at hfirst
      refine ⟨[c], (List.prefix_cons_inj c).mpr List.nil_prefix, rfl, ?_⟩
      rw [Dropper.callAll_cons_of_error hcall]
      exact hfirst

theorem keeps_inner {P : σ → Prop} (hkeeps : Dropper.Keeps P) :
    Dropper.Keeps fun r : Recorder σ => P r.inner := by
  intro verdict c r hr
  have hinner := hkeeps verdict c r.inner hr
  by_cases hfault : r.calls.length ∈ r.faults
  · rw [call_of_fault hfault]
    exact hr
  · cases hc : Dropper.call verdict c r.inner with
    | ok answer inner =>
      rw [hc] at hinner
      rw [call_of_ok hfault hc]
      exact hinner
    | error e inner =>
      rw [hc] at hinner
      rw [call_of_error hfault hc]
      exact hinner

theorem callAll_inner (h : Dropper.callAll verdict calls r = .ok verdict' r') :
    Dropper.callAll verdict calls r.inner = .ok verdict' r'.inner := by
  induction calls generalizing verdict r with
  | nil =>
    cases h
    rfl
  | cons c rest ih =>
    obtain ⟨answer, next, hcall, hrest⟩ := Dropper.callAll_cons_eq_ok h
    rw [Dropper.callAll_cons_of_ok (call_inner hcall)]
    exact ih hrest

theorem callAll_inner_of_error (hreliable : Dropper.Reliable σ)
    (h : Dropper.callAll verdict calls r = .error e r') :
    ∃ made c rest answer, calls = made ++ c :: rest ∧
      Dropper.callAll verdict made r.inner = .ok answer r'.inner := by
  induction calls generalizing verdict r with
  | nil => cases h
  | cons c rest ih =>
    by_cases hfault : r.calls.length ∈ r.faults
    · rw [Dropper.callAll_cons_of_error (call_of_fault hfault)] at h
      cases h
      exact ⟨[], c, rest, verdict, rfl, rfl⟩
    · obtain ⟨answer, inner, hinner⟩ := hreliable verdict c r.inner
      rw [Dropper.callAll_cons_of_ok (call_of_ok hfault hinner)] at h
      obtain ⟨made, c', rest', answer', hsplit, hmade⟩ := ih h
      refine ⟨c :: made, c', rest', answer', by rw [hsplit, List.cons_append], ?_⟩
      rw [Dropper.callAll_cons_of_ok hinner]
      exact hmade

end Recorder

end RateGovernor
