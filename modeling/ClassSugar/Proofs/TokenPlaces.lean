import Mathlib.Algebra.GroupWithZero.Nat
import Mathlib.Data.List.DropRight
import ClassSugar.Proofs.LexedTokens

/-!
# Where tokens stand

The line and the column of a token are told by the text before it alone, whatever was read there:
the line counts the line breaks of that text, and the column measures what stands behind the last of
them, a tab with four columns and any other character with one (`Token.positions_exact`).

The lexer does not look back at that text. Its scanner counts along with every character, in all the
loops and calls that read one, and takes a column off by hand where it steps back. That it comes out
right is the refinement of `Token.lex_eq`: the lexer stands where the walk over the pieces of the
source stands. So all there is left to show is what advancing over a text does to a place
(`Place.line_advance`, `Place.column_advance`) and that the walk has advanced over just the text
before a token when it makes the token (`Token.exists_place_of_mem`).
-/

namespace ClassSugar

open ClassSugar.Text

/-! ### Columns -/

/-- The columns that a character takes. -/
def Place.width (c : Char) : Nat :=
  if c = '\t' then 4 else 1

/-- The columns behind the last line break of a text. -/
def Place.columnAfter (before : List Char) : Nat :=
  ((before.rtakeWhile (· != '\n')).map width).sum

/-- A step over a character of a line takes the width of the character. -/
theorem Place.column_step (p : Place) {c : Char} (hc : c ≠ '\n') :
    (p.step c).column = p.column + width c := by
  simp only [step, width, tabWidth, if_neg hc]
  split <;> rfl

/-- **From the start of a source, a place is in the column that the text before it takes.** -/
theorem Place.column_advance (base : Nat) (before : List Char) :
    ((start base).advance before).column = columnAfter before := by
  -- The last character decides: a line break leads to the first column, any other one adds to the
  -- columns of the line that it stands on.
  induction before using List.reverseRecOn with
  | nil => rfl
  | append_singleton before c ih =>
    rw [advance_append, advance_cons, advance_nil, columnAfter]
    by_cases hc : c = '\n'
    · rw [hc, List.rtakeWhile_concat_neg _ _ _ (by decide)]
      rfl
    · rw [List.rtakeWhile_concat_pos (· != '\n') _ _ (bne_iff_ne.mpr hc), column_step _ hc, ih,
        columnAfter]
      simp

/-! ### Places of tokens and comments -/

/-- A span starts right behind a beginning of a source whose first byte has offset `base`. -/
def Span.StartsBehind (s : Span) (source : String) (base : Nat) (before : List Char) : Prop :=
  before <+: source.toList ∧ s.lo = base + String.utf8Len before

/-- A span runs over a text of a source that stands behind `before`. Its ends are words, counted from
the base on. -/
def Span.RunsOver (s : Span) (source : String) (base : UInt32) (before text : List Char) : Prop :=
  before ++ text <+: source.toList ∧
    s = .ofWords (base + .ofNat (String.utf8Len before))
      (base + .ofNat (String.utf8Len (before ++ text)))

/-- What a walk that starts at `base` passes is run over by the words of its offsets. -/
theorem Span.runsOver_word {source : String} {base : UInt32} {before text : List Char} {p : Place}
    (h : before ++ text <+: source.toList) (hp : p = (Place.start base.toNat).advance before) :
    (Span.mk p.offset (p.advance text).offset).word.RunsOver source base before text := by
  refine ⟨h, ?_⟩
  rw [Token.word_add, Token.word_add, Nat.add_comm, Nat.add_comm _ base.toNat, hp,
    ← Place.advance_append, Place.offset_advance, Place.offset_advance]
  rfl

namespace Token

/-- The walk makes a token at the place that it has reached, and of the text that it has before it. -/
theorem exists_place_of_mem {ps : List Piece} {p : Place} {gap : List Char} {leading : List Comment}
    {t : Token} (ht : t ∈ ofPieces p gap leading ps) :
    ∃ front rest q, ps = front ++ rest ∧ q = p.advance (front.flatMap Piece.text) ∧
      t.text.toList <+: rest.flatMap Piece.text ∧
      t.span = ⟨q.offset, (q.advance t.text.toList).offset⟩ ∧ t.line = q.line ∧
      t.column = q.column := by
  induction ps generalizing p gap leading with
  | nil =>
    rw [ofPieces, List.mem_singleton] at ht
    subst ht
    exact ⟨[], [], p, rfl, rfl, List.nil_prefix, rfl, rfl, rfl⟩
  | cons piece rest ih =>
    -- A token that comes later stands one piece further on.
    have hlater : ∀ gap' leading', t ∈ ofPieces (p.advance piece.text) gap' leading' rest →
        ∃ front after q, piece :: rest = front ++ after ∧ q = p.advance (front.flatMap Piece.text) ∧
          t.text.toList <+: after.flatMap Piece.text ∧
          t.span = ⟨q.offset, (q.advance t.text.toList).offset⟩ ∧ t.line = q.line ∧
          t.column = q.column := by
      intro gap' leading' hmem
      obtain ⟨front, after, q, rfl, hq, hstands⟩ := ih hmem
      refine ⟨piece :: front, after, q, rfl, ?_, hstands⟩
      rw [hq, List.flatMap_cons, Place.advance_append]
    rcases piece.cases_isToken with ⟨kind, hkind⟩ | hpassed
    · rw [ofPieces_of_token _ _ _ _ hkind] at ht
      rcases List.mem_cons.mp ht with rfl | ht
      · have htext : (piece.tokenAt p gap leading kind).text.toList = piece.text :=
          String.toList_ofList
        refine ⟨[], piece :: rest, p, rfl, rfl, ?_, ?_, rfl, rfl⟩
        · rw [htext]
          exact List.prefix_append _ _
        · rw [htext]
          rfl
      · exact hlater _ _ ht
    · rw [ofPieces_of_not_token _ _ _ _ hpassed] at ht
      exact hlater _ _ ht

theorem Piece.place_of_mem_commentAt {piece : Piece} {p : Place} {k : Comment}
    (hk : k ∈ piece.commentAt p) :
    k.span = piece.spanAt p ∧
      (k.text = String.ofList piece.text ∨ k.text = String.ofList (trimEnd piece.text)) ∧
      k.column = p.column := by
  unfold Piece.commentAt at hk
  split at hk
  · cases List.mem_singleton.mp hk
    exact ⟨rfl, .inr rfl, rfl⟩
  · cases List.mem_singleton.mp hk
    exact ⟨rfl, .inl rfl, rfl⟩
  · cases hk

/-- **Positions are exact.** The line of a token is one more than the line breaks before it, and the
column of a token or comment is made of the widths of the characters before it on its line. Where a
token or comment stands is told by its span, whatever the base. -/
theorem positions_exact {source : String} {base : UInt32} {ts : List Token}
    (h : lex source base = .ok ts) :
    ∀ t ∈ ts,
      (∃ before, t.span.RunsOver source base before t.text.toList ∧
        t.line = 1 + before.count '\n' ∧ t.column = Place.columnAfter before) ∧
      ∀ k ∈ t.leading, ∃ before text, k.span.RunsOver source base before text ∧
        (k.text = String.ofList text ∨ k.text = String.ofList (trimEnd text)) ∧
        k.column = Place.columnAfter before := by
  obtain ⟨us, htokenize, rfl⟩ := exists_tokenize_of_lex h
  obtain ⟨ps, hpieces, rfl⟩ := exists_pieces_of_tokenize htokenize
  have hsource := spell_pieces hpieces
  intro t ht
  obtain ⟨u, hu, rfl⟩ := List.mem_map.mp ht
  -- A token stands behind the pieces before it, and a comment is itself a piece.
  constructor
  · obtain ⟨front, rest, q, rfl, rfl, htext, hspan, hline, hcolumn⟩ := exists_place_of_mem hu
    rw [List.flatMap_append] at hsource
    refine ⟨front.flatMap Piece.text, ?_, hline.trans (Place.line_advance _ _),
      hcolumn.trans (Place.column_advance _ _)⟩
    show u.span.word.RunsOver source base _ u.text.toList
    rw [hspan]
    refine Span.runsOver_word ?_ rfl
    rw [← hsource]
    exact (List.prefix_append_right_inj _).mpr htext
  · intro k hk
    obtain ⟨k, hmem, rfl⟩ := List.mem_map.mp hk
    rcases exists_piece_of_mem_leading hu hmem with hmem | ⟨front, piece, rest, rfl, hfound⟩
    · cases hmem
    · obtain ⟨hspan, htext, hcolumn⟩ := Piece.place_of_mem_commentAt hfound
      refine ⟨front.flatMap Piece.text, piece.text, ?_, htext,
        hcolumn.trans (Place.column_advance _ _)⟩
      show k.span.word.RunsOver source base _ piece.text
      rw [hspan]
      refine Span.runsOver_word ?_ rfl
      rw [← hsource]
      simp

/-- A literal with a character literal at the start of a line in its hole, a comment that goes over
a line break, and tabs. -/
def brokenLines : String :=
  "$@\"\x7b\n\t'\t'\x7d\"\t/* \n */\tx"

/-- The source may even end behind the largest word: then the spans go over it, but lines and columns
do not. -/
theorem positions_exact_brokenLines :
    ∃ ts, lex brokenLines 4294967280 = .ok ts ∧
      ts.map (fun t => (t.span, t.line, t.column, t.leading.map Comment.column)) =
        [(⟨4294967280, 4294967291⟩, 1, 0, []), (⟨4, 5⟩, 3, 7, [16]), (⟨5, 5⟩, 3, 8, [])] ∧
      ∀ t ∈ ts,
        (∃ before, t.span.RunsOver brokenLines 4294967280 before t.text.toList ∧
          t.line = 1 + before.count '\n' ∧ t.column = Place.columnAfter before) ∧
        ∀ k ∈ t.leading, ∃ before text, k.span.RunsOver brokenLines 4294967280 before text ∧
          (k.text = String.ofList text ∨ k.text = String.ofList (trimEnd text)) ∧
          k.column = Place.columnAfter before := by
  have hrun : (lex brokenLines 4294967280).toOption.map
      (List.map fun t => (t.span, t.line, t.column, t.leading.map Comment.column)) =
      some [(⟨4294967280, 4294967291⟩, 1, 0, []), (⟨4, 5⟩, 3, 7, [16]), (⟨5, 5⟩, 3, 8, [])] := by
    decide +kernel
  obtain ⟨ts, h, hrun⟩ := exists_ok_of_map hrun
  exact ⟨ts, h, hrun, positions_exact h⟩

end Token

end ClassSugar
