import ClassSugar.Json.Basic

/-!
# Records in JSON

A record with named fields is given as an object, or as an array of its values in order. Fields may
be missing, and then take a default; an array may be short. Fields of other names are ignored. A
field given twice and an array that is too long are refused.

One of several words is given as a string, or as an object that has the word for its only field,
with nothing in it.
-/

namespace ClassSugar.Json

/-- What a record gives for each of the named fields. -/
def record? (names : List String) : Json → Option (List (Option Json))
  | .obj fields => names.mapM fun name =>
    match fields.filter fun f => f.1 == name with
    | [] => some none
    | [(_, value)] => some (some value)
    | _ => none
  | .arr items =>
    if items.length ≤ names.length then
      some ((List.range names.length).map fun i => items[i]?)
    else
      none
  | _ => none

/-- The value of a field, or a default if it is missing. -/
def orDefault {α : Type} (value : α) (decode : Json → Option α) : Option Json → Option α
  | some j => decode j
  | none => some value

/-- The word that the value is. -/
def word? : Json → Option String
  | .str s => some s
  | .obj [(s, .null)] => some s
  | _ => none

/-- The number that the value is, if it fits in 64 bits. -/
def size? (j : Json) : Option UInt64 :=
  (j.nat?.filter (· < UInt64.size)).map .ofNat

end ClassSugar.Json
