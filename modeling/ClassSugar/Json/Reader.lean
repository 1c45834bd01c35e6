import ClassSugar.Json.Basic

/-!
# Reading JSON

`Json.parse?` reads one value with nothing but blanks around it. The grammar is the strict one: no
leading zeros, no trailing commas, no control characters inside strings. An escaped surrogate that
does not stand in a pair is read, but what holds it is no text.

Reading a value takes at least one character, so the length of the text bounds both how deep values
nest and how many follow each other; twice the length is fuel enough for the three mutually
recursive readers.
-/

namespace ClassSugar.Json

/-- A blank between JSON tokens. -/
def isJsonBlank (c : Char) : Bool :=
  c == ' ' || c == '\n' || c == '\r' || c == '\t'

/-- The text without the blanks at its start. -/
def skipBlanks (cs : List Char) : List Char :=
  cs.dropWhile isJsonBlank

/-- The value of a hexadecimal digit. -/
def hexValue? (c : Char) : Option Nat :=
  if c.isDigit then some (c.toNat - 0x30)
  else if 'a' ≤ c ∧ c ≤ 'f' then some (c.toNat - 0x57)
  else if 'A' ≤ c ∧ c ≤ 'F' then some (c.toNat - 0x37)
  else none

/-- The number that four hexadecimal digits make, and the rest. -/
def hex4? : List Char → Option (Nat × List Char)
  | a :: b :: c :: d :: r => do
    let a ← hexValue? a
    let b ← hexValue? b
    let c ← hexValue? c
    let d ← hexValue? d
    return (((a * 16 + b) * 16 + c) * 16 + d, r)
  | _ => none

/-- The character that stands for itself after a backslash, in its short form. -/
def shortEscape? : Char → Option Char
  | '"' => some '"'
  | '\\' => some '\\'
  | '/' => some '/'
  | 'b' => some (Char.ofNat 0x08)
  | 'f' => some (Char.ofNat 0x0C)
  | 'n' => some '\n'
  | 'r' => some '\r'
  | 't' => some '\t'
  | _ => none

/-- The character that a first half of a surrogate pair makes with the escape that follows it, and
the rest. -/
def paired? (high : Nat) : List Char → Option (Char × List Char)
  | '\\' :: 'u' :: r => do
    let (low, r) ← hex4? r
    if high < 0xDC00 ∧ 0xDC00 ≤ low ∧ low ≤ 0xDFFF then
      return (Char.ofNat (0x10000 + (high - 0xD800) * 0x400 + (low - 0xDC00)), r)
    else
      none
  | _ => none

/-- The character that a `\u` escape names, and the rest. Half of a surrogate pair takes its other
half with it, and names no character without it. -/
def unicodeEscape? (cs : List Char) : Option (Option Char × List Char) := do
  let (unit, r) ← hex4? cs
  if unit < 0xD800 ∨ 0xDFFF < unit then
    return (some (Char.ofNat unit), r)
  else
    match paired? unit r with
    | some (c, r) => return (some c, r)
    | none => return (none, r)

/-- The text with a character in front of it. -/
def prepend (c : Option Char) (text : Option (List Char)) : Option (List Char) := do
  return (← c) :: (← text)

/-- The characters of a string whose opening quote was read, if it is a text, and the rest after its
closing quote. -/
def readChars : Nat → List Char → Option (Option (List Char) × List Char)
  | 0, _ => none
  | fuel + 1, cs =>
    match cs with
    | [] => none
    | '"' :: r => some (some [], r)
    | '\\' :: 'u' :: r => do
      let (c, r) ← unicodeEscape? r
      let (text, r) ← readChars fuel r
      return (prepend c text, r)
    | '\\' :: e :: r => do
      let c ← shortEscape? e
      let (text, r) ← readChars fuel r
      return (prepend c text, r)
    | c :: r =>
      if c = '\\' ∨ c.toNat < 0x20 then none
      else do
        let (text, r) ← readChars fuel r
        return (prepend c text, r)

/-- The string with the given characters. -/
def ofChars (text : Option (List Char)) : Json :=
  text.elim .unpaired fun cs => .str (String.ofList cs)

/-- The object with the given fields. -/
def ofFields (fields : Option (List (String × Json))) : Json :=
  fields.elim .unpaired .obj

/-- The fields with one more in front of them. -/
def prependField (name : Option (List Char)) (value : Json)
    (fields : Option (List (String × Json))) : Option (List (String × Json)) := do
  return (String.ofList (← name), value) :: (← fields)

/-- A run of decimal digits and the rest. -/
def digits (cs : List Char) : List Char × List Char :=
  (cs.takeWhile Char.isDigit, cs.dropWhile Char.isDigit)

/-- The number that decimal digits make. -/
def natOfDigits (ds : List Char) : Nat :=
  ds.foldl (fun n d => n * 10 + (d.toNat - 0x30)) 0

/-- The fraction of a number, if it is well formed, and the rest. -/
def readFraction? (cs : List Char) : Option (List Char × List Char) :=
  match cs with
  | '.' :: r =>
    let (ds, r) := digits r
    if ds.isEmpty then none else some ('.' :: ds, r)
  | _ => some ([], cs)

/-- The exponent of a number, if it is well formed, and the rest. -/
def readExponent? (cs : List Char) : Option (List Char × List Char) :=
  match cs with
  | c :: r =>
    if c = 'e' ∨ c = 'E' then
      let sign := (r.take 1).filter fun s => s == '+' || s == '-'
      let (ds, r) := digits (r.drop sign.length)
      if ds.isEmpty then none else some (c :: (sign ++ ds), r)
    else
      some ([], cs)
  | [] => some ([], cs)

/-- A number and the rest. -/
def readNumber? (cs : List Char) : Option (Json × List Char) := do
  let sign := (cs.take 1).filter (· == '-')
  let (whole, r) := digits (cs.drop sign.length)
  if whole.isEmpty ∨ (whole.head? = some '0' ∧ 1 < whole.length) then none
  else
    let (fraction, r) ← readFraction? r
    let (exponent, r) ← readExponent? r
    let n := natOfDigits whole
    -- A negative zero is no integer: its sign would be lost.
    if fraction.isEmpty ∧ exponent.isEmpty ∧ ¬(n = 0 ∧ ¬sign.isEmpty) then
      return (.int (if sign.isEmpty then .ofNat n else .negOfNat n), r)
    else
      return (.decimal (String.ofList (sign ++ whole ++ fraction ++ exponent)), r)

/-- A word and its value. -/
def readWord? (word : String) (value : Json) (cs : List Char) : Option (Json × List Char) :=
  if word.toList.isPrefixOf cs then some (value, cs.drop word.length) else none

mutual

/-- A value and the rest. -/
def readValue : Nat → List Char → Option (Json × List Char)
  | 0, _ => none
  | fuel + 1, cs =>
    match skipBlanks cs with
    | '"' :: r => do
      let (text, r) ← readChars (r.length + 1) r
      return (ofChars text, r)
    | '[' :: r =>
      match skipBlanks r with
      | ']' :: r => some (.arr [], r)
      | r => do
        let (items, r) ← readItems fuel r
        return (.arr items, r)
    | '\x7b' :: r =>
      match skipBlanks r with
      | '\x7d' :: r => some (.obj [], r)
      | r => do
        let (fields, r) ← readFields fuel r
        return (ofFields fields, r)
    | 't' :: r => readWord? "true" (.bool true) ('t' :: r)
    | 'f' :: r => readWord? "false" (.bool false) ('f' :: r)
    | 'n' :: r => readWord? "null" .null ('n' :: r)
    | r => readNumber? r

/-- The items of an array up to its closing bracket, and the rest. -/
def readItems : Nat → List Char → Option (List Json × List Char)
  | 0, _ => none
  | fuel + 1, cs => do
    let (item, r) ← readValue fuel cs
    match skipBlanks r with
    | ',' :: r =>
      let (items, r) ← readItems fuel r
      return (item :: items, r)
    | ']' :: r => return ([item], r)
    | _ => none

/-- The fields of an object up to its closing brace, if their names are texts, and the rest. -/
def readFields : Nat → List Char → Option (Option (List (String × Json)) × List Char)
  | 0, _ => none
  | fuel + 1, cs =>
    match skipBlanks cs with
    | '"' :: r => do
      let (name, r) ← readChars (r.length + 1) r
      match skipBlanks r with
      | ':' :: r =>
        let (value, r) ← readValue fuel r
        match skipBlanks r with
        | ',' :: r =>
          let (fields, r) ← readFields fuel r
          return (prependField name value fields, r)
        | '\x7d' :: r => return (prependField name value (some []), r)
        | _ => none
      | _ => none
    | _ => none

end

/-- The value that a text spells. -/
def parse? (s : String) : Option Json :=
  match readValue (2 * s.length + 2) s.toList with
  | some (value, rest) => if (skipBlanks rest).isEmpty then some value else none
  | none => none

end ClassSugar.Json
