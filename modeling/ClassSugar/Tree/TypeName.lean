import ClassSugar.Text.Words

/-!
# Types

A type is known by its text only, with the blanks in it normalised. That is enough to tell whether a
value of the type can be absent: a type written with `?` always admits `null`; in a nullable context
no other type does; otherwise every type does that is neither a tuple nor one of the value types
known by name.
-/

namespace ClassSugar

/-- A type as written. -/
structure TypeName where
  text : String
  deriving DecidableEq, Inhabited

namespace TypeName

open ClassSugar.Text

/-- The value types known by name. -/
def valueTypes : List String :=
  ["bool", "byte", "sbyte", "char", "decimal", "double", "float", "int", "uint", "nint",
   "nuint", "long", "ulong", "short", "ushort", "Boolean", "Byte", "SByte", "Char", "Decimal",
   "Double", "Single", "Int16", "Int32", "Int64", "UInt16", "UInt32", "UInt64", "IntPtr",
   "UIntPtr", "DateTime", "DateTimeOffset", "DateOnly", "TimeOnly", "TimeSpan", "Guid",
   "Half", "Int128", "UInt128"]

/-- Whether the type is written with `?`. -/
def isNullable (t : TypeName) : Bool :=
  endsWithChar t.text '?'

/-- Whether the type is `void`. -/
def isVoid (t : TypeName) : Bool :=
  t.text == "void"

/-- The name of the type without the root `global::` and the namespace `System.`, each taken off
once. -/
def simpleName (t : TypeName) : String :=
  dropStart (dropStart t.text "global::") "System."

/-- Whether a value of the type can be absent. -/
def admitsAbsent (t : TypeName) (nullableContext : Bool) : Bool :=
  t.isNullable ||
    (!nullableContext && !startsWith t.text "(" && !valueTypes.contains t.simpleName)

end TypeName

end ClassSugar
