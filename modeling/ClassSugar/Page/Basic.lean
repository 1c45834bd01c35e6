import ClassSugar.Text.Blank
import ClassSugar.Text.Lines
import ClassSugar.Tree.Verbatim

/-!
# Pages

Output is a page of rows. A row is a text at some level of indentation, or a gap that asks for an
empty line. A gap is only granted where it separates: not at the start of a page, and not where an
empty line stands already. Everything that writes code produces rows; `Row.render` alone turns them
into text. Rendering knows no bound; whether a page is too long for a text of the machine is asked
apart (`Row.outgrows`).

Code kept as written is laid out anew (`reindent`): its first line is trimmed, and each later line
loses as much of its indentation as the first line had in the source.
-/

namespace ClassSugar

open ClassSugar.Text

/-! ### Layout -/

/-- How a line ends. -/
inductive LineEnd where
  | lf
  | crlf
  deriving DecidableEq, Repr, Inhabited

/-- The characters at the end of a line. -/
def LineEnd.text : LineEnd → String
  | .lf => "\n"
  | .crlf => "\r\n"

/-- How a page is laid out. -/
structure Layout where
  /-- The spaces for one level of indentation, a machine word. -/
  indentWidth : UInt64 := 4
  lineEnd : LineEnd := .lf
  deriving DecidableEq, Repr, Inhabited

/-! ### Code kept as written -/

/-- A line without the blanks that fill its first `columns` visual columns. -/
def stripColumns (columns : Nat) : List Char → List Char
  | [] => []
  | c :: r =>
    if columns = 0 then c :: r
    else if c = ' ' then stripColumns (columns - 1) r
    else if c = '\t' then stripColumns (columns - Place.tabWidth) r
    else c :: r

/-- The lines of code that started at a visual column, without the indentation that they had. There
is always a first line. -/
def reindent (column : Nat) (text : List Char) : List (List Char) :=
  match lines text with
  | [] => [[]]
  | first :: rest => trim first :: rest.map fun line => trimEnd (stripColumns column line)

/-! ### Rows -/

/-- A row of a page. -/
inductive Row where
  /-- A text at a level of indentation. -/
  | line (level : Nat) (text : String)
  /-- An empty line, where it separates. -/
  | gap
  deriving DecidableEq, Inhabited

namespace Row

/-- The row one level further in. -/
def deeper : Row → Row
  | .line level text => .line (level + 1) text
  | .gap => .gap

/-- Rows one level further in. -/
def indented (rows : List Row) : List Row :=
  rows.map deeper

/-- Text on a row of its own. -/
def text (s : String) : List Row :=
  [.line 0 s]

/-- Lines with a text before the first and a text after the last of them. -/
def between (before after : String) : List String → List Row
  | [] => []
  | [s] => [.line 0 (before ++ s ++ after)]
  | s :: rest => .line 0 (before ++ s) :: between "" after rest

/-- Code kept as written, with a text before its first and a text after its last line. -/
def verbatim (before : String) (v : Verbatim) (after : String) : List Row :=
  between before after ((reindent v.column v.text.toList).map String.ofList)

/-! ### Rendering -/

/-- Adds a row to a page, which is kept as its reversed characters. An empty text gets no
indentation. -/
def write (indentWidth : Nat) (page : List Char) : Row → List Char
  | .line level text =>
    let indent := if text.isEmpty then 0 else level * indentWidth
    '\n' :: (text.toList.reverse ++ (List.replicate indent ' ' ++ page))
  | .gap =>
    match page with
    | [] => []
    | '\n' :: '\n' :: r => '\n' :: '\n' :: r
    | page => '\n' :: page

/-- The most bytes that a text of the machine may have. -/
def maxBytes : Nat :=
  UInt64.size / 2 - 1

/-- Whether a text grows too long while rows are added to a page. Room is asked for before the
indentation of a line is written, and only there can the request be too large: what is written
behind it is part of the tree already. -/
def outgrows (indentWidth : Nat) (page : List Char) : List Row → Bool
  | [] => false
  | row :: rest =>
    (match row with
      | .line level text =>
        !text.isEmpty && decide (maxBytes < (page.map Char.utf8Size).sum + level * indentWidth)
      | .gap => false) ||
      outgrows indentWidth (write indentWidth page row) rest

/-- A page as text, its lines ended as the layout says. -/
def render (layout : Layout) (rows : List Row) : String :=
  let page := (rows.foldl (write layout.indentWidth.toNat) []).reverse
  match layout.lineEnd with
  | .lf => String.ofList page
  | .crlf => String.ofList (page.flatMap fun c => if c = '\n' then ['\r', '\n'] else [c])

end Row

end ClassSugar
