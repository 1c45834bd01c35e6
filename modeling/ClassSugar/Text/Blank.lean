/-!
# Blank characters

A text is cut into words and lines around its blank characters: the twenty-five characters with the
Unicode property `White_Space`. They include the line separators U+2028 and U+2029 and the
ideographic space, which core's ASCII classifier does not know; they do not include the zero width
space or the byte order mark.

Trimming works on lists of characters, where its laws are laws of `List.dropWhile`.
-/

namespace ClassSugar.Text

/-- The blank characters: the Unicode property `White_Space`. -/
def isBlank (c : Char) : Bool :=
  let n := c.toNat
  (0x09 ≤ n && n ≤ 0x0D) || n == 0x20 || n == 0x85 || n == 0xA0 || n == 0x1680 ||
    (0x2000 ≤ n && n ≤ 0x200A) || n == 0x2028 || n == 0x2029 || n == 0x202F || n == 0x205F ||
    n == 0x3000

/-- The text without the blanks at its start. -/
def trimStart (cs : List Char) : List Char :=
  cs.dropWhile isBlank

/-- The text without the blanks at its end. -/
def trimEnd (cs : List Char) : List Char :=
  (cs.reverse.dropWhile isBlank).reverse

/-- The text without the blanks at either end. -/
def trim (cs : List Char) : List Char :=
  trimEnd (trimStart cs)

/-- A line break is blank. -/
@[simp] theorem isBlank_newline : isBlank '\n' = true := by decide

end ClassSugar.Text
