import ClassSugar.Proofs.ReflowedTokens
import ClassSugar.Proofs.TokenPlaces

/-!
# Where directives start

A directive is meant to start a line: nothing but blanks should stand before it there. The cutting
of a source does not look back to see whether that is so. It carries a flag from piece to piece
(`Piece.lineStartAfter`), which a line break sets and a token clears. A comment does not clear it,
and a line break *inside* a token sets it although the end of the token stands on the new line.

So two properties of the pieces that were passed have to be told apart, and both are about the line
that they end on:

* `NoneStarted`: no token starts on the line. This is what the flag says, at every place that the
  cutting reaches (`Passed.flag_iff`).
* `NoneEnded`: no token and no comment ends on the line. This is when the line is blank so far
  (`forall_isBlank_lastLine_iff`), since a piece that is not blank shows on the line that it ends on
  (`Piece.shows_next`).

`directives_exact` puts the two together, for every place where a `#` is met and for every directive
of a source that has tokens: no token starts before a directive on its line, and the line is blank
up to the directive just if nothing ends there either.
-/

namespace ClassSugar.Token

open ClassSugar.Text

/-! ### The last line of a text -/

/-- What stands behind the last line break of a text. -/
def lastLine (cs : List Char) : List Char :=
  cs.rtakeWhile (· != '\n')

/-- The text up to its last line break, which is included. -/
def earlierLines (cs : List Char) : List Char :=
  cs.rdropWhile (· != '\n')

theorem earlierLines_append_lastLine (cs : List Char) : earlierLines cs ++ lastLine cs = cs :=
  List.rdropWhile_append_rtakeWhile

theorem lines_concat_break (cs : List Char) :
    earlierLines (cs ++ ['\n']) = cs ++ ['\n'] ∧ lastLine (cs ++ ['\n']) = [] :=
  ⟨List.rdropWhile_concat_neg _ _ _ (by decide), List.rtakeWhile_concat_neg _ _ _ (by decide)⟩

theorem lines_concat (cs : List Char) {d : Char} (hd : d ≠ '\n') :
    earlierLines (cs ++ [d]) = earlierLines cs ∧ lastLine (cs ++ [d]) = lastLine cs ++ [d] :=
  ⟨List.rdropWhile_concat_pos (· != '\n') _ _ (bne_iff_ne.mpr hd),
    List.rtakeWhile_concat_pos (· != '\n') _ _ (bne_iff_ne.mpr hd)⟩

/-- Text with a line break decides which line is the last. -/
theorem lines_append_of_mem (cs : List Char) {ds : List Char} (h : '\n' ∈ ds) :
    earlierLines (cs ++ ds) = cs ++ earlierLines ds ∧ lastLine (cs ++ ds) = lastLine ds := by
  -- Along the text from its end: its last character is the break, or the break stands before it.
  induction ds using List.reverseRecOn with
  | nil => cases h
  | append_singleton ds d ih =>
    rw [← List.append_assoc]
    by_cases hd : d = '\n'
    · subst hd
      rw [(lines_concat_break _).1, (lines_concat_break _).1, (lines_concat_break _).2,
        (lines_concat_break _).2]
      exact ⟨List.append_assoc _ _ _, rfl⟩
    · have hds : '\n' ∈ ds := by
        rcases List.mem_append.mp h with hds | hlast
        · exact hds
        · exact absurd (List.mem_singleton.mp hlast).symm hd
      obtain ⟨hearlier, hlast⟩ := ih hds
      rw [(lines_concat _ hd).1, (lines_concat _ hd).1, (lines_concat _ hd).2,
        (lines_concat _ hd).2, hlast]
      exact ⟨hearlier, rfl⟩

/-- Text without a line break goes on with the last line. -/
theorem lines_append_of_notMem (cs : List Char) {ds : List Char} (h : '\n' ∉ ds) :
    earlierLines (cs ++ ds) = earlierLines cs ∧ lastLine (cs ++ ds) = lastLine cs ++ ds := by
  induction ds using List.reverseRecOn with
  | nil => simp
  | append_singleton ds d ih =>
    have hd : d ≠ '\n' := by
      rintro rfl
      exact h (List.mem_append_right _ List.mem_cons_self)
    obtain ⟨hearlier, hlast⟩ := ih fun hds => h (List.mem_append_left _ hds)
    rw [← List.append_assoc, (lines_concat _ hd).1, (lines_concat _ hd).2, hearlier, hlast]
    exact ⟨rfl, List.append_assoc _ _ _⟩

theorem lastLine_of_notMem {cs : List Char} (h : '\n' ∉ cs) : lastLine cs = cs :=
  (lines_append_of_notMem [] h).2

/-- The last line of a text is the end of the last line of any longer text that it ends. -/
theorem mem_lastLine_append (cs : List Char) {ds : List Char} {c : Char} (h : c ∈ lastLine ds) :
    c ∈ lastLine (cs ++ ds) := by
  by_cases hbreak : '\n' ∈ ds
  · rwa [(lines_append_of_mem cs hbreak).2]
  · rw [(lines_append_of_notMem cs hbreak).2]
    rw [lastLine_of_notMem hbreak] at h
    exact List.mem_append_right _ h

/-- The line breaks of a text are not on its last line. -/
theorem earlierLines_ne_nil {cs : List Char} (h : '\n' ∈ cs) : earlierLines cs ≠ [] := by
  intro hnil
  -- Otherwise the whole text is its last line, and the break stands on it.
  have hlast : cs = lastLine cs := by
    have hcs := earlierLines_append_lastLine cs
    rw [hnil, List.nil_append] at hcs
    exact hcs.symm
  rw [hlast] at h
  have hpass := List.mem_rtakeWhile_imp (p := (· != '\n')) h
  exact absurd hpass (by decide)

/-- The last character of a text stands on its last line. -/
theorem mem_lastLine_of_getLast? {cs : List Char} {c : Char} (h : cs.getLast? = some c)
    (hc : c ≠ '\n') : c ∈ lastLine cs := by
  obtain ⟨ds, rfl⟩ := List.getLast?_eq_some_iff.mp h
  rw [(lines_append_of_notMem ds fun hmem => hc (List.mem_singleton.mp hmem).symm).2]
  exact List.mem_append_right _ List.mem_cons_self

/-! ### What starts and what ends on the last line -/

/-- No token starts on the line that the pieces end on: a line break is in it or behind it. -/
def NoneStarted (front : List Piece) : Prop :=
  ∀ before p behind, front = before ++ p :: behind → p.isToken = true →
    '\n' ∈ (p :: behind).flatMap Piece.text

/-- Nothing but blanks ends on the line that the pieces end on: a line break is behind it. -/
def NoneEnded (front : List Piece) : Prop :=
  ∀ before p behind, front = before ++ p :: behind → p.kind ≠ .blank →
    '\n' ∈ behind.flatMap Piece.text

/-- What holds of each piece and the pieces behind it, if there is one more piece at the end. -/
theorem forall_split_concat {P : Piece → List Piece → Prop} {front : List Piece} {q : Piece} :
    (∀ before p behind, front ++ [q] = before ++ p :: behind → P p behind) ↔
      P q [] ∧ ∀ before p behind, front = before ++ p :: behind → P p (behind ++ [q]) := by
  constructor
  · intro h
    refine ⟨h front q [] rfl, ?_⟩
    rintro before p behind rfl
    exact h before p (behind ++ [q]) (List.append_assoc _ _ _)
  · rintro ⟨hlast, hearlier⟩ before p behind hsplit
    -- The piece in question is the new one, or the new one is the last of those behind it.
    rcases List.eq_nil_or_concat behind with rfl | ⟨behind, d, rfl⟩
    · obtain ⟨-, hq⟩ := List.append_inj' hsplit rfl
      cases hq
      exact hlast
    · have hsplit : front ++ [q] = (before ++ p :: behind) ++ [d] := by
        rw [hsplit, List.append_assoc, List.cons_append, List.concat_eq_append]
      obtain ⟨hfront, hq⟩ := List.append_inj' hsplit rfl
      cases hq
      rw [List.concat_eq_append]
      exact hearlier before p behind hfront

/-- A line break makes room for a directive, and so does what is no token if there was room. -/
theorem noneStarted_concat {front : List Piece} {q : Piece} :
    NoneStarted (front ++ [q]) ↔ '\n' ∈ q.text ∨ NoneStarted front ∧ q.isToken = false := by
  rw [NoneStarted, forall_split_concat]
  simp only [List.flatMap_cons, List.flatMap_append, List.flatMap_nil, List.append_nil]
  -- A break in the new piece is behind whatever stands before it.
  by_cases hbreak : '\n' ∈ q.text
  · refine iff_of_true ⟨fun _ => hbreak, ?_⟩ (.inl hbreak)
    intro before p behind _ _
    exact List.mem_append_right _ (List.mem_append_right _ hbreak)
  · rw [or_iff_right hbreak, and_comm, NoneStarted]
    simp only [List.mem_append, hbreak, or_false, List.flatMap_cons, imp_false,
      Bool.not_eq_true]

/-- Blanks go on with the line, and anything else ends on it. -/
theorem noneEnded_concat {front : List Piece} {q : Piece} :
    NoneEnded (front ++ [q]) ↔ q.kind = .blank ∧ ('\n' ∈ q.text ∨ NoneEnded front) := by
  rw [NoneEnded, forall_split_concat]
  simp only [List.flatMap_append, List.flatMap_cons, List.flatMap_nil, List.append_nil,
    List.not_mem_nil, imp_false, not_not, List.mem_append]
  refine and_congr_right fun _ => ?_
  by_cases hbreak : '\n' ∈ q.text
  · refine iff_of_true ?_ (.inl hbreak)
    intro before p behind _ _
    exact .inr hbreak
  · simp only [hbreak, or_false, false_or]
    rfl

/-! ### The flag of the cutting -/

/-- The places that the cutting of a text reaches: what it has passed, whether a directive may start
there, and what is left. -/
inductive Passed (cs : List Char) : List Piece → Bool → List Char → Prop where
  | start : Passed cs [] true cs
  | next {front : List Piece} {lineStart : Bool} {c : Char} {r : List Char} {kind : Piece.Kind}
      {t : Cut (c :: r)} (h : Passed cs front lineStart (c :: r))
      (hnext : Piece.next lineStart c r = .ok (kind, t)) :
      Passed cs (front ++ [⟨kind, t.read⟩]) (Piece.lineStartAfter lineStart ⟨kind, t.read⟩) t.rest

/-- A piece is blank, or something of it shows on the line that it ends on. -/
structure Piece.Shows (piece : Piece) : Prop where
  blank : piece.kind = .blank → ∀ c ∈ piece.text, isBlank c = true
  solid : piece.kind ≠ .blank → ∃ c ∈ lastLine piece.text, isBlank c = false

theorem Piece.shows_next {lineStart : Bool} {c : Char} {r : List Char} {kind : Piece.Kind}
    {t : Cut (c :: r)} (h : Piece.next lineStart c r = .ok (kind, t)) :
    Piece.Shows ⟨kind, t.read⟩ := by
  -- What ends with a character that is no blank shows that character.
  have hends : ∀ {a : List Char}, EndsSolid a → ∃ c ∈ lastLine a, isBlank c = false := by
    rintro a ⟨d, hlast, hd⟩
    exact ⟨d, mem_lastLine_of_getLast? hlast (ne_newline_of_solid hd), hd⟩
  refine ⟨(Piece.fits_next h).blank, fun hkind => ?_⟩
  cases Piece.nextAt_of_next h with
  | blank hblank => exact absurd rfl hkind
  | comment hblank hcomment =>
    have hat := Piece.commentAt_of_comment? hcomment
    generalize t.read = a at hat
    cases hat with
    | line hopen hline hend =>
      rw [lastLine_of_notMem hline]
      exact ⟨c, List.mem_cons_self, hblank⟩
    | block hopen hbody => exact hends ⟨'/', hbody.getLast?_comment c, by decide⟩
  | token hblank hcomment htoken => exact hends htoken.endsSolid

namespace Passed

variable {cs : List Char} {front : List Piece} {lineStart : Bool} {rest : List Char}

/-- What was passed and what is left are the text. -/
theorem spell (h : Passed cs front lineStart rest) : front.flatMap Piece.text ++ rest = cs := by
  induction h with
  | start => rfl
  | @next front lineStart c r kind t h hnext ih =>
    calc (front ++ [(⟨kind, t.read⟩ : Piece)]).flatMap Piece.text ++ t.rest
        = front.flatMap Piece.text ++ (t.read ++ t.rest) := by simp
      _ = front.flatMap Piece.text ++ (c :: r) := by rw [t.read_append_rest]
      _ = cs := ih

theorem shows (h : Passed cs front lineStart rest) : ∀ piece ∈ front, piece.Shows := by
  induction h with
  | start => exact List.forall_mem_nil _
  | next h hnext ih =>
    exact List.forall_mem_append.mpr ⟨ih, List.forall_mem_singleton.mpr (Piece.shows_next hnext)⟩

/-- **A directive may start where no token starts on the line.** -/
theorem flag_iff (h : Passed cs front lineStart rest) : lineStart = true ↔ NoneStarted front := by
  -- The invariant of the cutting: both sides change alike with one more piece.
  induction h with
  | start => exact iff_of_true rfl fun before p behind hsplit => by simp at hsplit
  | next h hnext ih =>
    rw [noneStarted_concat, ← ih]
    simp [Piece.lineStartAfter]

/-- The cutting passes the pieces that it finds, one after the other. -/
theorem of_pieces {ps qs : List Piece} (h : Passed cs front lineStart rest)
    (hpieces : pieces lineStart rest = .ok (ps ++ qs)) :
    ∃ lineStart', Passed cs (front ++ ps) lineStart' (qs.flatMap Piece.text) ∧
      pieces lineStart' (qs.flatMap Piece.text) = .ok qs := by
  -- Along the pieces that are passed; the place, the flag and the text left change with each.
  induction ps generalizing front lineStart rest with
  | nil =>
    have hrest : qs.flatMap Piece.text = rest := spell_pieces hpieces
    rw [List.append_nil, hrest]
    exact ⟨lineStart, h, hpieces⟩
  | cons p ps ih =>
    obtain ⟨c, r, t, rfl, hnext, hread, hpieces⟩ := exists_next_of_pieces hpieces
    have hpassed := h.next hnext
    rw [hread] at hpassed
    rw [← List.singleton_append, ← List.append_assoc]
    exact ih hpassed hpieces

end Passed

/-- **A line is blank so far if nothing ends on it.** -/
theorem forall_isBlank_lastLine_iff {front : List Piece} (h : ∀ piece ∈ front, piece.Shows) :
    (∀ c ∈ lastLine (front.flatMap Piece.text), isBlank c = true) ↔ NoneEnded front := by
  -- The last piece decides, if it is not a run of blanks without a line break.
  induction front using List.reverseRecOn with
  | nil => exact iff_of_true (List.forall_mem_nil _) fun before p behind hsplit => by simp at hsplit
  | append_singleton front q ih =>
    obtain ⟨hfront, hq⟩ := List.forall_mem_append.mp h
    have hq := List.forall_mem_singleton.mp hq
    rw [noneEnded_concat, ← ih hfront, List.flatMap_append, List.flatMap_singleton]
    by_cases hkind : q.kind = .blank
    · have hblank := hq.blank hkind
      rw [and_iff_right hkind]
      by_cases hbreak : '\n' ∈ q.text
      · rw [(lines_append_of_mem _ hbreak).2]
        refine iff_of_true (fun c hc => hblank c ?_) (.inl hbreak)
        exact (List.rtakeWhile_suffix _ _).subset hc
      · rw [(lines_append_of_notMem _ hbreak).2, List.forall_mem_append, or_iff_right hbreak]
        exact and_iff_left hblank
    · -- The piece shows on its last line, which is the end of the last line of all.
      obtain ⟨c, hc, hsolid⟩ := hq.solid hkind
      refine iff_of_false (fun hall => ?_) fun h => hkind h.1
      rw [hall c (mem_lastLine_append _ hc)] at hsolid
      cases hsolid

/-- What does not end on a line does not start there. -/
theorem NoneEnded.noneStarted {front : List Piece} (h : NoneEnded front) : NoneStarted front := by
  intro before p behind hsplit htoken
  have hkind : p.kind ≠ .blank := by
    intro hkind
    rw [Piece.isToken, hkind] at htoken
    cases htoken
  rw [List.flatMap_cons]
  exact List.mem_append_right _ (h before p behind hsplit hkind)

/-! ### Directives among the tokens of a source -/

/-- The offset of the first byte of the line that a text ends on. -/
def lineOffset (base : Nat) (before : List Char) : Nat :=
  base + String.utf8Len (earlierLines before)

/-- A text ends on an earlier line if a line break follows it. -/
theorem le_lineOffset_append_iff (base : Nat) {a behind : List Char} (ha : lastLine a ≠ []) :
    base + String.utf8Len a ≤ lineOffset base (a ++ behind) ↔ '\n' ∈ behind := by
  by_cases hbreak : '\n' ∈ behind
  · refine iff_of_true ?_ hbreak
    rw [lineOffset, (lines_append_of_mem a hbreak).1, String.utf8Len_append]
    omega
  · -- Without a break the last line of `a` goes on, and `a` ends behind its start.
    refine iff_of_false ?_ hbreak
    have hlen := String.utf8Len_append (earlierLines a) (lastLine a)
    have hpos : String.utf8Len (lastLine a) ≠ 0 := fun hzero => ha (String.utf8Len_eq_zero.mp hzero)
    rw [earlierLines_append_lastLine] at hlen
    rw [lineOffset, (lines_append_of_notMem a hbreak).1]
    omega

/-- A span of the comments and tokens is that of a piece that is no blank, or the end. -/
theorem mem_solidSpans_iff {ps : List Piece} {p : Place} {s : Span} :
    s ∈ solidSpans p ps ↔
      (∃ before piece behind, ps = before ++ piece :: behind ∧ piece.kind ≠ .blank ∧
        s = piece.spanAt (p.advance (before.flatMap Piece.text))) ∨
      s = ⟨(p.advance (ps.flatMap Piece.text)).offset,
        (p.advance (ps.flatMap Piece.text)).offset⟩ := by
  induction ps generalizing p with
  | nil => simp [solidSpans]
  | cons q rest ih =>
    -- The piece in question is the first one, or it is one of the others.
    have hsplit : (∃ before piece behind, q :: rest = before ++ piece :: behind ∧
          piece.kind ≠ .blank ∧ s = piece.spanAt (p.advance (before.flatMap Piece.text))) ↔
        (q.kind ≠ .blank ∧ s = q.spanAt p) ∨
          ∃ before piece behind, rest = before ++ piece :: behind ∧ piece.kind ≠ .blank ∧
            s = piece.spanAt ((p.advance q.text).advance (before.flatMap Piece.text)) := by
      constructor
      · rintro ⟨before, piece, behind, hps, hkind, hs⟩
        cases before with
        | nil =>
          cases hps
          exact .inl ⟨hkind, hs⟩
        | cons x before =>
          cases hps
          rw [List.flatMap_cons, Place.advance_append] at hs
          exact .inr ⟨before, piece, behind, rfl, hkind, hs⟩
      · rintro (⟨hkind, hs⟩ | ⟨before, piece, behind, rfl, hkind, hs⟩)
        · exact ⟨[], q, rest, rfl, hkind, hs⟩
        · refine ⟨q :: before, piece, behind, rfl, hkind, ?_⟩
          rw [List.flatMap_cons, Place.advance_append]
          exact hs
    rw [hsplit, or_assoc, List.flatMap_cons, Place.advance_append, ← ih, solidSpans]
    cases hkind : q.kind <;> simp

/-- A piece that starts before the end of the pieces `front` is one of them. -/
theorem exists_behind_of_lt {before behind front rest : List Piece} {q : Piece}
    (hsplit : front ++ rest = before ++ q :: behind)
    (hlt : String.utf8Len (before.flatMap Piece.text) < String.utf8Len (front.flatMap Piece.text)) :
    ∃ between, front = before ++ q :: between := by
  -- Either `front` ends before the piece, and so not behind its start, or the piece is in it.
  rcases List.append_eq_append_iff.mp hsplit with ⟨more, rfl, -⟩ | ⟨more, rfl, hmore⟩
  · rw [List.flatMap_append, String.utf8Len_append] at hlt
    omega
  · cases more with
    | nil =>
      rw [List.append_nil] at hlt
      omega
    | cons x between =>
      cases hmore
      exact ⟨between, rfl⟩

section Offsets

variable {source : String} {base : Nat} {front rest : List Piece} {piece : Piece}

/-- If no token starts on the line behind `front`, then the tokens of the source that start before
its end start before the line. -/
theorem NoneStarted.lo_lt_lineOffset (h : NoneStarted front)
    (hpieces : pieces true source.toList = .ok (front ++ piece :: rest)) {u : Token}
    (hu : u ∈ ofPieces (Place.start base) [] [] (front ++ piece :: rest))
    (hlt : u.span.lo < base + String.utf8Len (front.flatMap Piece.text)) :
    u.span.lo < lineOffset base (front.flatMap Piece.text) := by
  cases hend : u.isEof with
  | true =>
    -- The end of the source does not start before anything.
    obtain ⟨init, last, hsplit, hinit, -, hspan⟩ :=
      exists_eof_ofPieces (fits_of_mem_pieces hpieces) (Place.start base) [] []
    rw [hsplit, List.mem_append, List.mem_singleton] at hu
    rcases hu with hu | rfl
    · rw [hinit u hu] at hend
      cases hend
    · have hlo : u.span.lo =
          base + String.utf8Len ((front ++ piece :: rest).flatMap Piece.text) := by
        rw [hspan]
        exact Place.offset_advance _ _
      rw [List.flatMap_append, String.utf8Len_append] at hlo
      omega
  | false =>
    -- A token in front of the place has a break in it or behind it, and so the line starts later.
    obtain ⟨before, q, behind, hsplit, htoken, -, hspan⟩ := exists_piece_of_mem hu hend
    have hlo : u.span.lo = base + String.utf8Len (before.flatMap Piece.text) := by
      rw [hspan]
      exact Place.offset_advance _ _
    rw [hlo] at hlt ⊢
    obtain ⟨between, rfl⟩ := exists_behind_of_lt hsplit (by omega)
    have hbreak := h before q between rfl htoken
    rw [List.flatMap_append, lineOffset, (lines_append_of_mem _ hbreak).1, String.utf8Len_append]
    have hpos : String.utf8Len (earlierLines ((q :: between).flatMap Piece.text)) ≠ 0 :=
      fun hzero => earlierLines_ne_nil hbreak (String.utf8Len_eq_zero.mp hzero)
    omega

/-- Nothing ends on the line behind `front` just if the comments and tokens of the source that end
before its end do so before the line. -/
theorem noneEnded_iff_hi_le_lineOffset
    (hpieces : pieces true source.toList = .ok (front ++ piece :: rest))
    (hshows : ∀ p ∈ front, p.Shows) :
    NoneEnded front ↔
      ∀ s ∈ spans (ofPieces (Place.start base) [] [] (front ++ piece :: rest)),
        s.hi ≤ base + String.utf8Len (front.flatMap Piece.text) →
          s.hi ≤ lineOffset base (front.flatMap Piece.text) := by
  have hfits := fits_of_mem_pieces hpieces
  -- Where a piece ends, and when that is on the line behind `front`.
  have hhi : ∀ (before : List Piece) (q : Piece),
      (q.spanAt ((Place.start base).advance (before.flatMap Piece.text))).hi =
        base + String.utf8Len (before.flatMap Piece.text ++ q.text) := by
    intro before q
    rw [Piece.spanAt, ← Place.advance_append]
    exact Place.offset_advance _ _
  have hline : ∀ {before between : List Piece} {q : Piece}, front = before ++ q :: between →
      q.kind ≠ .blank → (base + String.utf8Len (before.flatMap Piece.text ++ q.text) ≤
        lineOffset base (front.flatMap Piece.text) ↔ '\n' ∈ between.flatMap Piece.text) := by
    rintro before between q rfl hkind
    obtain ⟨c, hc, -⟩ :=
      (hshows q (List.mem_append_right _ List.mem_cons_self)).solid hkind
    have hne := List.ne_nil_of_mem (mem_lastLine_append (before.flatMap Piece.text) hc)
    rw [List.flatMap_append, List.flatMap_cons, ← List.append_assoc]
    exact le_lineOffset_append_iff base hne
  rw [spans_ofPieces, List.map_nil, List.nil_append]
  constructor
  · intro h s hs hle
    rcases mem_solidSpans_iff.mp hs with ⟨before, q, behind, hsplit, hkind, rfl⟩ | rfl
    · have hq : q ∈ front ++ piece :: rest := hsplit ▸ List.mem_append_right _ List.mem_cons_self
      have hpos : String.utf8Len q.text ≠ 0 :=
        fun hzero => (hfits q hq).text_ne_nil (String.utf8Len_eq_zero.mp hzero)
      rw [hhi] at hle ⊢
      have hlen := String.utf8Len_append (before.flatMap Piece.text) q.text
      obtain ⟨between, rfl⟩ := exists_behind_of_lt hsplit (by omega)
      exact (hline rfl hkind).mpr (h before q between rfl hkind)
    · -- The end of the source lies behind the piece that follows `front`.
      have hpiece := hfits piece (List.mem_append_right _ List.mem_cons_self)
      have hpos : String.utf8Len piece.text ≠ 0 :=
        fun hzero => hpiece.text_ne_nil (String.utf8Len_eq_zero.mp hzero)
      have hend : ((Place.start base).advance ((front ++ piece :: rest).flatMap Piece.text)).offset
          = base + String.utf8Len ((front ++ piece :: rest).flatMap Piece.text) :=
        Place.offset_advance _ _
      have hlen : String.utf8Len ((front ++ piece :: rest).flatMap Piece.text) =
          String.utf8Len (front.flatMap Piece.text) +
            (String.utf8Len piece.text + String.utf8Len (rest.flatMap Piece.text)) := by
        rw [List.flatMap_append, List.flatMap_cons, String.utf8Len_append, String.utf8Len_append]
      change Place.offset _ ≤ _ at hle
      omega
  · -- Conversely the span of a piece of `front` is one of those that the right side is about.
    intro h before q between hfront hkind
    have hsplit : front ++ piece :: rest = before ++ q :: (between ++ piece :: rest) := by
      rw [hfront, List.append_assoc, List.cons_append]
    have hle := h _ (mem_solidSpans_iff.mpr (.inl ⟨before, q, _, hsplit, hkind, rfl⟩))
    rw [hhi] at hle
    refine (hline hfront hkind).mp (hle ?_)
    rw [hfront, List.flatMap_append, List.flatMap_cons, ← List.append_assoc,
      String.utf8Len_append (before.flatMap Piece.text ++ q.text)]
    omega

end Offsets

/-- A directive is cut off only where the flag allows it. -/
theorem Piece.lineStart_of_mem_commentAt {lineStart : Bool} {c : Char} {r : List Char}
    {piece : Piece} {t : Cut (c :: r)} {p : Place} {k : Comment}
    (hnext : Piece.next lineStart c r = .ok (piece.kind, t)) (hread : t.read = piece.text)
    (hk : k ∈ piece.commentAt p) (hhash : k.text.toList.head? = some '#') : lineStart = true := by
  obtain ⟨kind, text⟩ := piece
  subst hread
  cases Piece.nextAt_of_next hnext with
  | blank hblank => cases hk
  | token hblank hcomment htoken => cases hk
  | comment hblank hcomment =>
    have hat := Piece.commentAt_of_comment? hcomment
    generalize t.read = a at hat hk
    cases hat with
    | line hopen hline hend =>
      cases List.mem_singleton.mp hk
      rw [String.toList_ofList, trimEnd_cons ⟨c, List.mem_cons_self, hblank⟩] at hhash
      cases hhash
      -- A line comment opens with slashes, or with a `#` where the flag was set.
      rcases hopen with hslashes | ⟨-, hstart⟩
      · exact absurd (List.cons_prefix_cons.mp hslashes).1 (by decide)
      · exact hstart
    | block hopen hbody =>
      cases List.mem_singleton.mp hk
      rw [String.toList_ofList, hopen] at hhash
      exact absurd (Option.some.inj hhash) (by decide)

/-- **Where directives start.** At every place that the cutting of a source reaches, a directive may
start just if no token starts before it on the line. That is so if the line is blank up to there,
and the line is blank just if no token and no comment ends on it. So before a directive no token
starts on the line, and the line is blank just if nothing ends there. -/
theorem directives_exact (source : String) (base : Nat) :
    (∀ front lineStart rest, Passed source.toList front lineStart rest →
      front.flatMap Piece.text ++ rest = source.toList ∧
      (lineStart = true ↔ NoneStarted front) ∧
      ((∀ c ∈ lastLine (front.flatMap Piece.text), isBlank c = true) ↔ NoneEnded front) ∧
      ((∀ c ∈ lastLine (front.flatMap Piece.text), isBlank c = true) → lineStart = true)) ∧
    ∀ ts, tokenize source base = .ok ts →
      ∀ t ∈ ts, ∀ k ∈ t.leading, k.text.toList.head? = some '#' →
        ∃ before, k.span.StartsBehind source base before ∧
          (∀ u ∈ ts, u.span.lo < k.span.lo → u.span.lo < lineOffset base before) ∧
          ((∀ c ∈ lastLine before, isBlank c = true) ↔
            ∀ s ∈ spans ts, s.hi ≤ k.span.lo → s.hi ≤ lineOffset base before) := by
  constructor
  · -- The places that the cutting reaches.
    intro front lineStart rest h
    have hended := forall_isBlank_lastLine_iff h.shows
    exact ⟨h.spell, h.flag_iff, hended, fun hblank =>
      h.flag_iff.mpr (hended.mp hblank).noneStarted⟩
  · -- The directives of a source with tokens: each was cut off at a place of that kind.
    intro ts hts t ht k hk hhash
    obtain ⟨ps, hpieces, rfl⟩ := exists_pieces_of_tokenize hts
    rcases exists_piece_of_mem_leading ht hk with hmem | ⟨front, piece, rest, rfl, hfound⟩
    · cases hmem
    · obtain ⟨lineStart, hpassed, hrest⟩ := Passed.start.of_pieces hpieces
      rw [List.nil_append] at hpassed
      obtain ⟨c, r, u, hcs, hnext, hread, -⟩ := exists_next_of_pieces hrest
      -- A directive is cut off only where the flag is set, so no token starts before it.
      have hstart := Piece.lineStart_of_mem_commentAt hnext hread hfound hhash
      have hlo : k.span.lo = base + String.utf8Len (front.flatMap Piece.text) := by
        rw [(Piece.place_of_mem_commentAt hfound).1]
        exact Place.offset_advance _ _
      refine ⟨front.flatMap Piece.text, ⟨⟨_, hpassed.spell⟩, hlo⟩, ?_, ?_⟩
      · intro u hu hlt
        rw [hlo] at hlt
        exact (hpassed.flag_iff.mp hstart).lo_lt_lineOffset hpieces hu hlt
      · rw [hlo, forall_isBlank_lastLine_iff hpassed.shows]
        exact noneEnded_iff_hi_le_lineOffset hpieces hpassed.shows

/-- A directive that a comment stands before on its line. -/
def commentedDirective : String :=
  "/* a */ #b"

/-- What stands before the directive. -/
def commentThenBlank : List Piece :=
  [⟨.block, "/* a */".toList⟩, ⟨.blank, [' ']⟩]

theorem pieces_commentedDirective :
    pieces true commentedDirective.toList =
      .ok (commentThenBlank ++ [⟨.line, ['#', 'b']⟩]) := by
  have hrun : (pieces true commentedDirective.toList).toOption =
      some (commentThenBlank ++ [⟨.line, ['#', 'b']⟩]) := by
    decide +kernel
  cases h : pieces true commentedDirective.toList with
  | error fault => rw [h] at hrun; cases hrun
  | ok ps => rw [h] at hrun; exact congrArg _ (Option.some.inj hrun)

/-- The flag allows the directive although its line is not blank, and so the directive is one of the
comments of the source. -/
theorem directives_exact_commentedDirective :
    (∃ front rest, Passed commentedDirective.toList front true ('#' :: rest) ∧
      NoneStarted front ∧ ¬∀ c ∈ lastLine (front.flatMap Piece.text), isBlank c = true) ∧
    ∃ ts, tokenize commentedDirective 1 = .ok ts ∧ ∃ t ∈ ts, ∃ k ∈ t.leading, k.text = "#b" ∧
      ∃ before, k.span.StartsBehind commentedDirective 1 before ∧
        (∀ u ∈ ts, u.span.lo < k.span.lo → u.span.lo < lineOffset 1 before) ∧
        ¬∀ c ∈ lastLine before, isBlank c = true := by
  obtain ⟨hplaces, hdirectives⟩ := directives_exact commentedDirective 1
  constructor
  · -- Before the `#` no token starts, but a comment ends.
    obtain ⟨lineStart, hpassed, -⟩ := Passed.start.of_pieces pieces_commentedDirective
    obtain ⟨-, hflag, hblank, -⟩ := hplaces _ _ _ hpassed
    have hnone : NoneStarted ([] ++ commentThenBlank) := by
      intro before p behind hsplit htoken
      have hmem : p ∈ commentThenBlank := by
        rw [← List.nil_append commentThenBlank, hsplit]
        exact List.mem_append_right _ List.mem_cons_self
      have hpassedOver : ∀ p ∈ commentThenBlank, p.isToken = false := by decide
      rw [hpassedOver p hmem] at htoken
      cases htoken
    cases hflag.mpr hnone
    refine ⟨_, _, hpassed, hnone, fun hall => ?_⟩
    have hbreak := hblank.mp hall [] ⟨.block, "/* a */".toList⟩ [⟨.blank, [' ']⟩] rfl (by decide)
    exact absurd hbreak (by decide)
  · have hts : tokenize commentedDirective 1 = .ok (ofPieces (Place.start 1) [] []
        (commentThenBlank ++ [⟨.line, ['#', 'b']⟩])) := by
      rw [tokenize, pieces_commentedDirective]
    have hspans : (⟨1, 8⟩ : Span) ∈ spans (ofPieces (Place.start 1) [] []
        (commentThenBlank ++ [⟨.line, ['#', 'b']⟩])) := by
      decide +kernel
    have hleading : ∃ t ∈ ofPieces (Place.start 1) [] []
        (commentThenBlank ++ [⟨.line, ['#', 'b']⟩]),
      (⟨"#b", ⟨9, 11⟩, 8⟩ : Comment) ∈ t.leading := by
      decide +kernel
    obtain ⟨t, ht, hk⟩ := hleading
    obtain ⟨before, hbehind, hstarted, hended⟩ := hdirectives _ hts t ht _ hk (by decide)
    refine ⟨_, hts, t, ht, _, hk, rfl, before, hbehind, hstarted, fun hall => ?_⟩
    -- The source has one line, and the comment ends on it.
    have hline : '\n' ∉ before := fun hmem =>
      absurd (hbehind.1.subset hmem) (by decide : '\n' ∉ commentedDirective.toList)
    have hzero : lineOffset 1 before = 1 :=
      congrArg (1 + String.utf8Len ·) (lines_append_of_notMem [] hline).1
    have hle := hended.mp hall _ hspans (by decide)
    rw [hzero] at hle
    exact absurd hle (by decide)

end ClassSugar.Token
