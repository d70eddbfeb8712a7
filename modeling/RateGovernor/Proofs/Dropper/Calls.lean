import Mathlib
import RateGovernor.Dropper.Recorder
import RateGovernor.Dropper.Scripted

/-!
# Sequences of dropper calls

A dropper is called a number of times in a row until one of the calls is interrupted. A recorder
without faults does not change what comes of that: it passes all calls on and keeps them.
-/

namespace RateGovernor

section State

variable {ε σ α β : Type} {x : EStateM ε σ α} {s s' : σ}

theorem bind_of_ok {a : α} (h : x s = .ok a s') (f : α → EStateM ε σ β) :
    (x >>= f) s = f a s' := by
  simp only [bind, EStateM.bind, h]

theorem bind_of_error {e : ε} (h : x s = .error e s') (f : α → EStateM ε σ β) :
    (x >>= f) s = .error e s' := by
  simp only [bind, EStateM.bind, h]

theorem bind_eq_ok {f : α → EStateM ε σ β} {b : β} (h : (x >>= f) s = .ok b s') :
    ∃ a next, x s = .ok a next ∧ f a next = .ok b s' := by
  cases hx : x s with
  | ok a next =>
    rw [bind_of_ok hx] at h
    exact ⟨a, next, rfl, h⟩
  | error e next =>
    rw [bind_of_error hx] at h
    cases h

end State

variable {σ : Type} [Dropper σ]

namespace Dropper

/-- Make a call and return its verdict, or the given one if it does not ask for a verdict. -/
def call (verdict : Bool) : Call → EStateM Interruption σ Bool
  | .perform command => do
    perform command
    return verdict
  | .shouldDrop => shouldDrop

/-- Make calls one after the other and return the last verdict. -/
def callAll (verdict : Bool) (calls : List Call) : EStateM Interruption σ Bool :=
  calls.foldlM call verdict

/-- No call to the dropper is ever interrupted. -/
def Reliable (σ : Type) [Dropper σ] : Prop :=
  ∀ (verdict : Bool) (c : Call) (s : σ), ∃ verdict' s', call verdict c s = .ok verdict' s'

theorem Reliable.callAll (h : Reliable σ) (verdict : Bool) (calls : List Call) (s : σ) :
    ∃ verdict' s', Dropper.callAll verdict calls s = .ok verdict' s' := by
  induction calls generalizing verdict s with
  | nil => exact ⟨verdict, s, rfl⟩
  | cons c rest ih =>
    obtain ⟨answer, next, hcall⟩ := h verdict c s
    rw [Dropper.callAll, List.foldlM_cons, bind_of_ok hcall]
    exact ih answer next

end Dropper

theorem Scripted.reliable : Dropper.Reliable Scripted := by
  intro verdict c s
  cases c with
  | perform command => exact ⟨verdict, s, rfl⟩
  | shouldDrop => exact ⟨s.next, { s with given := s.given + 1 }, rfl⟩

namespace Recorder

variable {call : Call} {verdict verdict' : Bool} {inner inner' : σ}

private theorem call_ok (h : Dropper.call verdict call inner = .ok verdict' inner')
    (made : List Call) :
    Dropper.call verdict call (⟨inner, made, []⟩ : Recorder σ) =
      .ok verdict' ⟨inner', made ++ [call], []⟩ := by
  cases call with
  | perform command =>
    obtain ⟨a, next, hcall, hreturn⟩ := bind_eq_ok h
    cases hreturn
    have hpass : Dropper.perform command (⟨inner, made, []⟩ : Recorder σ) =
        .ok () ⟨inner', made ++ [.perform command], []⟩ := by
      simp [Dropper.perform, pass, hcall]
    exact bind_of_ok hpass _
  | shouldDrop =>
    change Dropper.shouldDrop inner = _ at h
    simp [Dropper.call, Dropper.shouldDrop, pass, h]

theorem callAll_ok {calls : List Call}
    (h : Dropper.callAll verdict calls inner = .ok verdict' inner') (made : List Call) :
    Dropper.callAll verdict calls (⟨inner, made, []⟩ : Recorder σ) =
      .ok verdict' ⟨inner', made ++ calls, []⟩ := by
  induction calls generalizing verdict inner made with
  | nil =>
    cases h
    rw [List.append_nil]
    rfl
  | cons call rest ih =>
    rw [Dropper.callAll, List.foldlM_cons] at h ⊢
    obtain ⟨answer, next, hcall, hrest⟩ := bind_eq_ok h
    rw [bind_of_ok (call_ok hcall made)]
    have := ih hrest (made ++ [call])
    rwa [List.append_assoc, List.singleton_append] at this

end Recorder

end RateGovernor
