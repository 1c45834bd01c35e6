import ClassSugar.Text.Blank

/-!
# Beginnings, ends and words of a text

The few questions that the library asks about a `String` as a whole, answered on its list of
characters.
-/

namespace ClassSugar.Text

/-- Whether a text starts with another. -/
def startsWith (s front : String) : Bool :=
  front.toList.isPrefixOf s.toList

/-- Whether a text ends with a character. -/
def endsWithChar (s : String) (c : Char) : Bool :=
  s.toList.getLast? == some c

/-- The text after a beginning, or the whole text if it begins otherwise. -/
def dropStart (s front : String) : String :=
  if startsWith s front then String.ofList (s.toList.drop front.length) else s

/-- The words of a text: its longest runs without blanks. `word` is the reversed start of the
current run. -/
def wordsAux (word : List Char) : List Char → List String
  | [] => if word.isEmpty then [] else [String.ofList word.reverse]
  | c :: r =>
    if isBlank c then
      if word.isEmpty then wordsAux [] r else String.ofList word.reverse :: wordsAux [] r
    else
      wordsAux (c :: word) r

/-- The words of a text: its longest runs without blanks. -/
def words (s : String) : List String :=
  wordsAux [] s.toList

/-- The parts of a text between occurrences of a character, from the first part on, of which the
reversed start is given. -/
def partsFrom (separator : Char) (part : List Char) : List Char → List String
  | [] => [String.ofList part.reverse]
  | c :: r =>
    if c = separator then String.ofList part.reverse :: partsFrom separator [] r
    else partsFrom separator (c :: part) r

/-- The parts of a text between occurrences of a character. -/
def parts (separator : Char) (s : String) : List String :=
  partsFrom separator [] s.toList

/-- The text without the blanks at either end. -/
def trimmed (s : String) : String :=
  String.ofList (trim s.toList)

end ClassSugar.Text
