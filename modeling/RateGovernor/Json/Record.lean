import RateGovernor.Json.Value

/-!
# Records

A record is written as an object with its fields in declaration order. It is read from such an
object, or from an array of exactly the fields. In an object the order is free and members under
other names are passed over, however often they occur; each field must be there exactly once, and
every name must be made of characters.
-/

namespace RateGovernor.Json.Value

def record (names : List String) (fields : List Value) : Value :=
  .object ((names.map some).zip fields)

/-- The one member of a name. -/
def member? (members : List (Option String × Value)) (name : String) : Option Value :=
  match members.filter (·.1 == some name) with
  | [(_, v)] => some v
  | _ => none

/-- The fields of a record in declaration order. -/
def fields? (names : List String) : Value → Option (List Value)
  | .array items => if items.length = names.length then some items else none
  | .object members =>
    if members.all (·.1.isSome) then names.mapM (member? members) else none
  | _ => none

end RateGovernor.Json.Value
