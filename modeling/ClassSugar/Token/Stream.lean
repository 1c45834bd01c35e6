import ClassSugar.Token.Piece

/-!
# The tokens of a source

`Token.tokenize` places the pieces of a source: every token gets its span, line and column, the
comments in front of it, and its gap. A fault of the cutting, told by suffixes of the source, gets
its span and line in the same way, by advancing over the text before it.
-/

namespace ClassSugar.Token

open ClassSugar.Text

/-- The tokens that pieces make from place `p` on, with the gap and the comments before them that
were already passed. -/
def ofPieces (p : Place) (gap : List Char) (leading : List Comment) : List Piece → List Token
  | [] =>
    [{ kind := .eof, text := "", span := ⟨p.offset, p.offset⟩, line := p.line, column := p.column
       leading := leading, gap := String.ofList gap }]
  | piece :: rest =>
    let q := p.advance piece.text
    let span : Span := ⟨p.offset, q.offset⟩
    match piece.kind with
    | .blank => ofPieces q (gap ++ piece.text) leading rest
    | .line =>
      let comment : Comment := ⟨String.ofList (trimEnd piece.text), span, p.column⟩
      ofPieces q (gap ++ piece.text) (leading ++ [comment]) rest
    | .block =>
      let comment : Comment := ⟨String.ofList piece.text, span, p.column⟩
      ofPieces q (gap ++ piece.text) (leading ++ [comment]) rest
    | .token kind =>
      { kind := kind, text := String.ofList piece.text, span := span, line := p.line
        column := p.column, leading := leading, gap := String.ofList gap } ::
        ofPieces q [] [] rest

/-- The place of a suffix of a source. -/
def placeOf (base : Nat) (source suffix : List Char) : Place :=
  (Place.start base).advance (source.take (source.length - suffix.length))

/-- A fault as an error of a source. -/
def Fault.locate (base : Nat) (source : List Char) : Fault → Token.Error
  | .unclosed left =>
    let start := placeOf base source left.start
    .unterminated left.what ⟨start.offset, (placeOf base source left.stop).offset⟩ start.line
  | .stray c rest =>
    let start := placeOf base source (c :: rest)
    .unexpectedChar c ⟨start.offset, (start.step c).offset⟩ start.line

/-- The tokens of a source whose first byte has offset `base`. The last of them, and only the last,
is the end of the source. -/
def tokenize (source : String) (base : Nat) : Except Token.Error (List Token) :=
  match pieces true source.toList with
  | .ok ps => .ok (ofPieces (Place.start base) [] [] ps)
  | .error fault => .error (fault.locate base source.toList)

end ClassSugar.Token
