import ClassSugar.Json.Basic

/-!
# Writing JSON

Two forms are written. The compact form has no blanks at all. The pretty form puts every item and
field on a line of its own, indented by two spaces a level, with a space after each colon and with
`[]` and empty braces for what has no items.

In strings only what must be escaped is escaped: the quote, the backslash and the control characters
below U+0020, five of which have a short form. What is no text is written as `null`.
-/

namespace ClassSugar.Json

/-- The lowercase hexadecimal digit of a number below sixteen. -/
def hexDigit (n : Nat) : Char :=
  Char.ofNat (if n < 10 then 0x30 + n else 0x57 + n)

/-- A character as it stands inside a JSON string. -/
def escape (c : Char) : List Char :=
  match c with
  | '"' => ['\\', '"']
  | '\\' => ['\\', '\\']
  | '\n' => ['\\', 'n']
  | '\r' => ['\\', 'r']
  | '\t' => ['\\', 't']
  | c =>
    if c.toNat = 0x08 then ['\\', 'b']
    else if c.toNat = 0x0C then ['\\', 'f']
    else if c.toNat < 0x20 then
      ['\\', 'u', '0', '0', hexDigit (c.toNat / 16), hexDigit (c.toNat % 16)]
    else [c]

/-- A text as a JSON string. -/
def quote (s : String) : String :=
  "\"" ++ String.ofList (s.toList.flatMap escape) ++ "\""

mutual

/-- The compact form of a value. -/
def compact : Json → String
  | .null => "null"
  | .bool b => if b then "true" else "false"
  | .int n => toString n
  | .decimal literal => literal
  | .str s => quote s
  | .arr items => "[" ++ String.intercalate "," (compactItems items) ++ "]"
  | .obj fields => "\x7b" ++ String.intercalate "," (compactFields fields) ++ "\x7d"
  | .unpaired => "null"

/-- The compact forms of the items of an array. -/
def compactItems : List Json → List String
  | [] => []
  | item :: rest => compact item :: compactItems rest

/-- The compact forms of the fields of an object. -/
def compactFields : List (String × Json) → List String
  | [] => []
  | (name, value) :: rest => (quote name ++ ":" ++ compact value) :: compactFields rest

end

/-- Lines between brackets: every entry on a line of its own, one level further in. -/
def bracketed (indent : String) (opening closing : String) (entries : List String) : String :=
  if entries.isEmpty then
    opening ++ closing
  else
    let inner := "\n" ++ indent ++ "  "
    opening ++ inner ++ String.intercalate ("," ++ inner) entries ++ "\n" ++ indent ++ closing

mutual

/-- The pretty form of a value that stands at this indentation. -/
def prettyAt (indent : String) : Json → String
  | .arr items => bracketed indent "[" "]" (prettyItems (indent ++ "  ") items)
  | .obj fields => bracketed indent "\x7b" "\x7d" (prettyFields (indent ++ "  ") fields)
  | .null => compact .null
  | .bool b => compact (.bool b)
  | .int n => compact (.int n)
  | .decimal literal => compact (.decimal literal)
  | .str s => compact (.str s)
  | .unpaired => compact .unpaired

/-- The pretty forms of the items of an array. -/
def prettyItems (indent : String) : List Json → List String
  | [] => []
  | item :: rest => prettyAt indent item :: prettyItems indent rest

/-- The pretty forms of the fields of an object. -/
def prettyFields (indent : String) : List (String × Json) → List String
  | [] => []
  | (name, value) :: rest =>
    (quote name ++ ": " ++ prettyAt indent value) :: prettyFields indent rest

end

/-- The pretty form of a value. -/
def pretty (j : Json) : String :=
  prettyAt "" j

end ClassSugar.Json
