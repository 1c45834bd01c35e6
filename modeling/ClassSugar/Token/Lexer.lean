import ClassSugar.Token.Scanner

/-!
# The tokens of a source, read one after the other

A lexer asks a scanner for one token at a time. `Scanner.next` passes blanks, comments and directives
and then reads a token, or finds the end of the source; `Token.lex` goes on until that end. Blanks,
comments, words, numbers and operators are read over character by character, literals are scanned
turn by turn, and in between the scanner knows where it stands. All of its positions come about that
way.

A token gets the positions of the scanner before and behind it as machine words, counted from the base
of the source. Bases add up modulo 2 ^ 32, so the words of a source that reaches over 2 ^ 32 are not
in the order of the source. Lines and columns are counted in words as well, but there an overflow is
no result: it ends the reading (`Failure.overflow`).
-/

namespace ClassSugar.Token

open ClassSugar.Text

/-- Why a lexer stops before the end of a source, with the scanner at the start of the trouble and
where it gave up. -/
inductive Halt where
  /-- Something is left open. -/
  | unclosed (left : Unfinished)
  /-- The character starts no piece. -/
  | stray (c : Char) (start stop : Scanner)

/-- Why there are no tokens. -/
inductive Failure where
  | error (e : Token.Error)
  /-- A line or a column is not a number of 32 bits. -/
  | overflow
  deriving DecidableEq, Repr

namespace Scanner

/-- The text between two places of a scanner. -/
def upTo (s s' : Scanner) : List Char :=
  s.rest.take (s.rest.length - s'.rest.length)

/-- The span between two places of a scanner, in a source that starts at `base`. -/
def spanTo (base : UInt32) (s s' : Scanner) : Span :=
  .ofWords (base + .ofNat s.place.offset) (base + .ofNat s'.place.offset)

/-- The token between two places, behind a gap and comments that were passed before. -/
def tokenTo (base : UInt32) (gap : List Char) (leading : List Comment) (kind : Token.Kind)
    (s s' : Scanner) : Token where
  kind := kind
  text := String.ofList (s.upTo s')
  span := s.spanTo base s'
  line := s.place.line
  column := s.place.column
  leading := leading
  gap := String.ofList gap

/-- The comment between two places, if a piece of this kind is one. -/
def commentTo (base : UInt32) (kind : Piece.Kind) (s s' : Scanner) : List Comment :=
  match kind with
  | .line => [⟨String.ofList (trimEnd (s.upTo s')), s.spanTo base s', s.place.column⟩]
  | .block => [⟨String.ofList (s.upTo s'), s.spanTo base s', s.place.column⟩]
  | _ => []

/-- The scanner at the start of a token: no directive may follow on this line. -/
def atToken (s : Scanner) : Scanner :=
  { s with lineStart := false }

/-- The literal that starts a text, and the call that scans it. -/
def literal? (cs : List Char) : Option (Token.Kind × Call) :=
  if (Opening.of? cs).isSome then some (.str, .string)
  else if cs.head? = some '\'' then some (.char, .quote)
  else none

/-- Where a fault of a piece that is no literal leaves the scanner. -/
def haltAt (s : Scanner) : Fault → Halt
  | .unclosed left => .unclosed ⟨left.what, s, s.bumps (s.rest.length - left.stop.length)⟩
  | .stray c _ => .stray c s s.bump

/-- The next token, behind a gap and comments that were passed before, and the scanner behind it. -/
def nextFrom (base : UInt32) (gap : List Char) (leading : List Comment) (s : Scanner) :
    Except Halt (Token × Scanner) :=
  match _ : s.rest with
  | [] => .ok (s.tokenTo base gap leading .eof s, s)
  | c :: r =>
    match literal? (c :: r) with
    | some (kind, call) =>
      match (Scan.start call s.atToken).run with
      | .error left => .error (.unclosed left)
      | .ok s' => .ok (s.tokenTo base gap leading kind s', s')
    | none =>
      match Piece.next s.lineStart c r with
      | .error fault => .error (s.haltAt fault)
      | .ok (.token kind, t) =>
        let s' := s.atToken.bumps t.read.length
        .ok (s.tokenTo base gap leading kind s', s')
      | .ok (kind, t) =>
        let s' := s.bumps t.read.length
        nextFrom base (gap ++ t.read) (leading ++ s.commentTo base kind s') s'
termination_by s.rest.length
decreasing_by
  have hpos := (pos_and_le_of_cut t).1
  simp_all only [rest_bumps, List.length_drop, List.length_cons]
  omega

/-- The next token, and the scanner behind it. -/
def next (base : UInt32) (s : Scanner) : Except Halt (Token × Scanner) :=
  nextFrom base [] [] s

/-- What is left behind a token that does not end the source is less than there was. -/
theorem length_nextFrom_lt {base : UInt32} {gap : List Char} {leading : List Comment}
    {s s' : Scanner} {t : Token} (h : nextFrom base gap leading s = .ok (t, s'))
    (ht : t.isEof = false) : s'.rest.length < s.rest.length := by
  fun_induction nextFrom base gap leading s with
  | case1 gap leading s hrest =>
    cases h
    cases ht
  | case2 => cases h
  | case3 gap leading s c r hrest kind call hliteral s'' hrun =>
    cases h
    have hcall : call.isHole = false := by
      unfold literal? at hliteral
      grind [Call.isHole]
    show s'.rest.length < s.atToken.rest.length
    exact Scan.length_run_start_lt hcall hrun
  | case4 => cases h
  | case5 gap leading s c r hrest hliteral kind t' hnext s'' =>
    have hs : s'' = s' := (Prod.mk.inj (Except.ok.inj h)).2
    have hpos := pos_and_le_of_cut t'
    simp only [← hs, s'', rest_bumps, List.length_drop, atToken, hrest]
    omega
  | case6 gap leading s c r hrest hliteral kind t' hnext hkind s'' ih =>
    have hpos := pos_and_le_of_cut t'
    have hrest' := ih h
    simp only [s'', rest_bumps, List.length_drop, hrest] at hrest' ⊢
    omega

end Scanner

/-- The tokens that a scanner has before it. -/
def lexFrom (base : UInt32) (s : Scanner) : Except Halt (List Token) :=
  match _ : s.next base with
  | .error halt => .error halt
  | .ok (t, s') => if _ : t.isEof then .ok [t] else (lexFrom base s').map (t :: ·)
termination_by s.rest.length
decreasing_by exact Scanner.length_nextFrom_lt ‹_› (Bool.eq_false_iff.mpr ‹_›)

namespace Halt

/-- The scanner when it gave up. -/
def stop : Halt → Scanner
  | .unclosed left => left.stop
  | .stray _ _ stop => stop

/-- What is wrong, in a source that starts at `base`. -/
def locate (base : UInt32) : Halt → Token.Error
  | .unclosed left =>
    .unterminated left.what (left.start.spanTo base left.stop) left.start.place.line
  | .stray c start stop => .unexpectedChar c (start.spanTo base stop) start.place.line

end Halt

/-- The tokens of a source whose first byte has position `base`. The last of them, and only the last,
is the end of the source. -/
def lex (source : String) (base : UInt32) : Except Failure (List Token) :=
  match lexFrom base (.start source.toList) with
  | .ok ts => if (Place.start 0).fitsAll source.toList then .ok ts else .error .overflow
  | .error halt =>
    if (Place.start 0).fitsAll halt.stop.read.reverse then .error (.error (halt.locate base))
    else .error .overflow

end ClassSugar.Token
