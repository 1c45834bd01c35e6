import ClassSugar.Proofs.LosslessTokens

/-!
# Tokens of a source that stands elsewhere

What is read from a source depends on where the source stands only in its positions. Moving the
start of a text by some bytes and lines moves everything that is read from it by as many bytes and
lines, and leaves columns and texts alone.

Everything comes from one law of places (`Place.advance_shift`): advancing over a text and moving
can be exchanged. A source at another base is the plain case, without a change of lines
(`Token.tokenize_add`).
-/

namespace ClassSugar

open ClassSugar.Text

/-! ### Moved places -/

/-- The span `n` bytes further on. -/
def Span.shift (n : Nat) (s : Span) : Span :=
  ⟨s.lo + n, s.hi + n⟩

/-- The place `n` bytes and `m` lines further on, in the same column. -/
def Place.shift (n m : Nat) (p : Place) : Place :=
  ⟨p.offset + n, p.line + m, p.column⟩

namespace Place

variable (n m : Nat) (p : Place)

theorem step_shift (c : Char) : (p.shift n m).step c = (p.step c).shift n m := by
  unfold step shift
  split
  · simp only [Nat.add_right_comm]
  · simp only [Nat.add_right_comm]

/-- **Advancing does not depend on where a text stands.** -/
theorem advance_shift (cs : List Char) : (p.shift n m).advance cs = (p.advance cs).shift n m := by
  induction cs generalizing p with
  | nil => rfl
  | cons c cs ih => rw [advance_cons, advance_cons, step_shift, ih]

theorem start_add (base k : Nat) : start (base + k) = (start base).shift k 0 := rfl

theorem line_advance (cs : List Char) : (p.advance cs).line = p.line + cs.count '\n' := by
  induction cs generalizing p with
  | nil => rfl
  | cons c cs ih =>
    rw [advance_cons, ih, step, List.count_cons]
    by_cases hc : c = '\n'
    · simp only [hc, beq_self_eq_true, if_true]
      omega
    · simp only [hc, beq_iff_eq, if_false]
      omega

end Place

/-! ### Moved tokens -/

/-- The comment `n` bytes further on. -/
def Comment.shift (n : Nat) (c : Comment) : Comment :=
  { c with span := c.span.shift n }

namespace Token

/-- The token `n` bytes and `m` lines further on, with its comments. -/
def shift (n m : Nat) (t : Token) : Token :=
  { t with span := t.span.shift n, line := t.line + m, leading := t.leading.map (Comment.shift n) }

/-- The error `n` bytes and `m` lines further on. -/
def Error.shift (n m : Nat) : Token.Error → Token.Error
  | .unterminated what span line => .unterminated what (span.shift n) (line + m)
  | .unexpectedChar c span line => .unexpectedChar c (span.shift n) (line + m)

/-- What reading tokens gives, `n` bytes and `m` lines further on. -/
def shiftResult (n m : Nat) : Except Token.Error (List Token) → Except Token.Error (List Token)
  | .ok ts => .ok (ts.map (Token.shift n m))
  | .error e => .error (e.shift n m)

section Pieces

variable (n m : Nat) (p : Place) (piece : Piece)

theorem Piece.spanAt_shift : piece.spanAt (p.shift n m) = (piece.spanAt p).shift n := by
  rw [Piece.spanAt, Place.advance_shift]
  rfl

theorem Piece.commentAt_shift :
    piece.commentAt (p.shift n m) = (piece.commentAt p).map (Comment.shift n) := by
  unfold Piece.commentAt
  rw [Piece.spanAt_shift]
  cases piece.kind <;> rfl

/-- **Pieces that stand elsewhere make the same tokens there.** -/
theorem ofPieces_shift (gap : List Char) (leading : List Comment) (ps : List Piece) :
    ofPieces (p.shift n m) gap (leading.map (Comment.shift n)) ps =
      (ofPieces p gap leading ps).map (Token.shift n m) := by
  induction ps generalizing p gap leading with
  | nil => rfl
  | cons piece ps ih =>
    rcases piece.cases_isToken with ⟨kind, hkind⟩ | hpassed
    · rw [ofPieces_of_token _ _ _ _ hkind, ofPieces_of_token _ _ _ _ hkind, List.map_cons,
        Place.advance_shift, Piece.tokenAt, Piece.spanAt_shift]
      exact congrArg (_ :: ·) (ih (p.advance piece.text) [] [])
    · rw [ofPieces_of_not_token _ _ _ _ hpassed, ofPieces_of_not_token _ _ _ _ hpassed,
        Place.advance_shift, Piece.commentAt_shift, ← List.map_append]
      exact ih (p.advance piece.text) (gap ++ piece.text) (leading ++ piece.commentAt p)

end Pieces

/-! ### A source at another base -/

theorem placeOf_add (base k : Nat) (source rest : List Char) :
    placeOf (base + k) source rest = (placeOf base source rest).shift k 0 := by
  rw [placeOf, Place.start_add, Place.advance_shift]
  rfl

theorem Fault.locate_add (base k : Nat) (source : List Char) (fault : Fault) :
    fault.locate (base + k) source = (fault.locate base source).shift k 0 := by
  cases fault with
  | unclosed left =>
    simp only [Fault.locate, placeOf_add]
    rfl
  | stray c rest =>
    simp only [Fault.locate, placeOf_add, Place.step_shift]
    rfl

/-- **The tokens of a source at another base** are the same tokens further on. -/
theorem tokenize_add (source : String) (base k : Nat) :
    tokenize source (base + k) = shiftResult k 0 (tokenize source base) := by
  unfold tokenize
  cases pieces true source.toList with
  | error fault => exact congrArg Except.error (fault.locate_add base k source.toList)
  | ok ps => exact congrArg Except.ok (ofPieces_shift k 0 (Place.start base) [] [] ps)

end Token

end ClassSugar
