import RateGovernor.Json.Value

/-!
# Tokens of a value

The reading machine takes the tokens of a value from any point where a value may stand to the point
after it, whatever containers are unfinished. So `Value.ofTokens?` reads back what `Value.tokens`
spells.
-/

namespace RateGovernor.Json

open Progress

private theorem foldlM_step_firstItem (v : Value) (stack : List Frame) :
    v.tokens.foldlM step (.firstItem stack) =
      v.tokens.foldlM step (.value (.array [] :: stack)) := by
  cases v with
  | array items => cases items <;> rfl
  | object members => rcases members with _ | ⟨⟨_, _⟩, _⟩ <;> rfl
  | _ => rfl

mutual

theorem foldlM_step_tokens (v : Value) (stack : List Frame) :
    v.tokens.foldlM step (.value stack) = some (.after v stack) := by
  match v with
  | .null => rfl
  | .bool b => rfl
  | .number n => rfl
  | .string s => rfl
  | .array [] => rfl
  | .array (v :: items) =>
    simp only [Value.tokens, List.foldlM_cons, List.foldlM_append, step, start,
      Option.bind_eq_bind, Option.bind_some]
    rw [foldlM_step_firstItem, foldlM_step_tokens v]
    exact foldlM_step_itemTokens items v [] stack
  | .object [] => rfl
  | .object ((name, v) :: members) =>
    simp only [Value.tokens, List.foldlM_cons, List.foldlM_append, step, start,
      Option.bind_eq_bind, Option.bind_some]
    rw [foldlM_step_tokens v]
    exact foldlM_step_memberTokens members name v [] stack

theorem foldlM_step_itemTokens (items : List Value) (v : Value) (before : List Value)
    (stack : List Frame) :
    (itemTokens items).foldlM step (.after v (.array before :: stack)) =
      some (.after (.array (before.reverse ++ v :: items)) stack) := by
  match items with
  | [] => simp [itemTokens, step, proceed]
  | w :: items =>
    simp only [itemTokens, List.foldlM_cons, List.foldlM_append, step, proceed,
      Option.bind_eq_bind, Option.bind_some]
    rw [foldlM_step_tokens w, Option.bind_some, foldlM_step_itemTokens items w]
    simp

theorem foldlM_step_memberTokens (members : List (Option String × Value)) (name : Option String)
    (v : Value) (before : List (Option String × Value)) (stack : List Frame) :
    (memberTokens members).foldlM step (.after v (.object before name :: stack)) =
      some (.after (.object (before.reverse ++ (name, v) :: members)) stack) := by
  match members with
  | [] => simp [memberTokens, step, proceed]
  | (name', w) :: members =>
    simp only [memberTokens, List.foldlM_cons, List.foldlM_append, step, proceed,
      Option.bind_eq_bind, Option.bind_some]
    rw [foldlM_step_tokens w, Option.bind_some, foldlM_step_memberTokens members name' w]
    simp

end

theorem Value.ofTokens?_tokens (v : Value) : Value.ofTokens? v.tokens = some v := by
  rw [Value.ofTokens?, foldlM_step_tokens]
  rfl

end RateGovernor.Json
