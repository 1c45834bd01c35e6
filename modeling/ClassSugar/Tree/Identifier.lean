import ClassSugar.Text.Case

/-!
# Identifiers

An identifier may be written with a leading `@`, which is not part of the name: it lets a name be
spelled like a keyword. Two identifiers are the same name when they agree without it.

The case of the first letter decides whether a primary parameter declares a property
(`isCapitalized`), and `camelCase` is the spelling of the constructor parameter behind such a
property.
-/

namespace ClassSugar.Identifier

open ClassSugar.Text

/-- The reserved words of C#. An identifier spelled like one needs a leading `@`. -/
def reservedWords : List String :=
  ["abstract", "as", "base", "bool", "break", "byte", "case", "catch", "char", "checked",
   "class", "const", "continue", "decimal", "default", "delegate", "do", "double", "else",
   "enum", "event", "explicit", "extern", "false", "finally", "fixed", "float", "for",
   "foreach", "goto", "if", "implicit", "in", "int", "interface", "internal", "is", "lock",
   "long", "namespace", "new", "null", "object", "operator", "out", "override", "params",
   "private", "protected", "public", "readonly", "ref", "return", "sbyte", "sealed", "short",
   "sizeof", "stackalloc", "static", "string", "struct", "switch", "this", "throw", "true",
   "try", "typeof", "uint", "ulong", "unchecked", "unsafe", "ushort", "using", "virtual",
   "void", "volatile", "while"]

/-- Whether a word is reserved. -/
def isReserved (word : String) : Bool :=
  reservedWords.contains word

/-- The characters of a name without the leading `@`. -/
def bareChars (name : String) : List Char :=
  name.toList.dropWhile (· == '@')

/-- The name without the leading `@`. -/
def bare (name : String) : String :=
  String.ofList (bareChars name)

/-- Whether two identifiers are the same name. -/
def same (a b : String) : Bool :=
  bare a == bare b

/-- Whether the first letter of a name is uppercase. -/
def isCapitalized (name : String) : Bool :=
  match bareChars name with
  | c :: _ => isUpper c
  | [] => false

/-- The characters of a name with its first letter lowered. -/
def lowerFirst : List Char → List Char
  | c :: r => toLower c ++ r
  | [] => []

/-- The name with its first letter lowered, written with a leading `@` if that is a reserved
word. -/
def camelCase (name : String) : String :=
  let lowered := String.ofList (lowerFirst (bareChars name))
  if isReserved lowered then "@" ++ lowered else lowered

end ClassSugar.Identifier
