import Chiptune.Json.Basic

/-! What a JSON value says about a number, a list or a record.  A record is an object, or an array of
its fields in order. -/

namespace Chiptune.Json

/-- A whole number below `bound`. -/
def nat? (bound : Nat) : Json → Option Nat
  | number n => n.toNat?.filter (· < bound)
  | _ => none

/-- A floating-point number. -/
def float? : Json → Option Float
  | number n => n.toFloat?
  | _ => none

/-- The items of an array, each one read by `item?`. -/
def list? {α : Type} (item? : Json → Option α) : Json → Option (List α)
  | array items => items.mapM item?
  | _ => none

/-- Whether all names of an object are texts. -/
def namesAreTexts (members : List (Option String × Json)) : Bool :=
  members.all (·.1.isSome)

/-- The member with a name, if there is one.  There must not be two. -/
def member? (members : List (Option String × Json)) (name : String) : Option (Option Json) :=
  match members.filter (·.1 == some name) with
  | [] => some none
  | [(_, json)] => some (some json)
  | _ => none

/-- The fields of a record, in the order of `names`, each with its value if it has one.  Other members
of an object do not count, and an array must not have more items than there are fields. -/
def fields? (names : List String) : Json → Option (List (Option Json))
  | object members =>
    if namesAreTexts members then names.mapM (member? members) else none
  | array items =>
    if items.length ≤ names.length then
      some (items.map some ++ List.replicate (names.length - items.length) none)
    else none
  | _ => none

/-- A field that may be missing, read by `read?`. -/
def optional {α : Type} (default : α) (read? : Json → Option α) : Option Json → Option α
  | some json => read? json
  | none => some default

/-- A field that must be there, read by `read?`. -/
def required {α : Type} (read? : Json → Option α) (field : Option Json) : Option α :=
  field.bind read?

end Chiptune.Json
