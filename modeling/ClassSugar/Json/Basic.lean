/-!
# JSON values

The library writes its trees and reports as JSON, and reads its configuration from it. A value keeps
the fields of an object in the order in which they were given, because the order is part of what is
printed. Numbers are the integers; a literal with a fraction or an exponent is kept as its text and
is no integer, whatever its value.

A string may be written with an escape that names half of a surrogate pair. It is well formed, but
no text: all that can be done with it is to pass it over. The same holds of an object that has such
a string for the name of a field.
-/

namespace ClassSugar

/-- A JSON value. -/
inductive Json where
  | null
  | bool (b : Bool)
  | int (n : Int)
  /-- A number written with a fraction or an exponent. -/
  | decimal (literal : String)
  | str (s : String)
  | arr (items : List Json)
  | obj (fields : List (String × Json))
  /-- A string, or an object with a name, that is no text. -/
  | unpaired
  deriving Inhabited

namespace Json

/-- A natural number. -/
def nat (n : Nat) : Json :=
  .int (.ofNat n)

/-- A list of texts. -/
def strs (ss : List String) : Json :=
  .arr (ss.map .str)

/-- A value that may be absent. -/
def option {α : Type} (encode : α → Json) : Option α → Json
  | some a => encode a
  | none => .null

/-- An object with one field. -/
def tagged (tag : String) (value : Json) : Json :=
  .obj [(tag, value)]

/-- The fields of an object, none for any other value. -/
def fields : Json → List (String × Json)
  | .obj fs => fs
  | _ => []

/-- The value of a field; of fields with the same name the last counts. -/
def get? (j : Json) (name : String) : Option Json :=
  (j.fields.reverse.find? fun f => f.1 == name).map Prod.snd

/-- The text that the value is. -/
def str? : Json → Option String
  | .str s => some s
  | _ => none

/-- The truth value that the value is. -/
def bool? : Json → Option Bool
  | .bool b => some b
  | _ => none

/-- The natural number that the value is. -/
def nat? : Json → Option Nat
  | .int (.ofNat n) => some n
  | _ => none

/-- The items of the array that the value is. -/
def arr? : Json → Option (List Json)
  | .arr items => some items
  | _ => none

end Json

end ClassSugar
