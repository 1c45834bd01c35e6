import ClassSugar.Proofs.PageText
import ClassSugar.Proofs.ReflowedTokens
import ClassSugar.Proofs.PageTokens

/-!
# Code on a page, token by token

Code that is kept as written is laid out anew when it is written: its lines lose the columns that
they had in common (`reflow`), and on the page its later lines get an indentation (`widen`). If it
has no comments and no token that spans lines, nothing of this touches a token. So the code is cut into
the same tokens on the page as it was in the source, with other blanks between them (`exists_laid`),
and it is still ended by the semicolon that was written behind it (`Token.Lexes.value`).
-/

namespace ClassSugar

open ClassSugar.Text ClassSugar.Token ClassSugar.Renaming

/-! ### Indentation -/

/-- A text with an indentation behind its line breaks, but for those before an empty line. -/
def widen : List Char → List Char
  | [] => []
  | c :: r =>
    c :: ((if c = '\n' ∧ atLineEnd r = false then List.replicate 4 ' ' else []) ++ widen r)

theorem widen_append {w : List Char} (h : '\n' ∉ w) (rest : List Char) :
    widen (w ++ rest) = w ++ widen rest := by
  induction w with
  | nil => rfl
  | cons c w ih =>
    obtain ⟨hc, hw⟩ := not_or.mp (mt List.mem_cons.mpr h)
    rw [List.cons_append, widen, if_neg fun hbreak => hc hbreak.1.symm, ih hw]
    rfl

theorem onPage_eq_widen {first : List Char} {rest : List (List Char)}
    (h : ∀ line ∈ first :: rest, '\n' ∉ line) :
    onPage 4 (first :: rest) = widen (['\n'].intercalate (first :: rest)) := by
  obtain ⟨hfirst, hrest⟩ := List.forall_mem_cons.mp h
  rw [intercalate_cons, widen_append hfirst, onPage, List.append_cancel_left_eq]
  clear h hfirst
  induction rest with
  | nil => rfl
  | cons line rest ih =>
    obtain ⟨hline, hrest⟩ := List.forall_mem_cons.mp hrest
    have hend : atLineEnd (rest.flatMap fun line => '\n' :: line) = true := by
      cases rest <;> rfl
    rw [List.flatMap_cons, List.flatMap_cons, ih hrest, List.cons_append, List.cons_append, widen,
      widen_append hline, ← List.append_assoc]
    cases line with
    | nil => simp [hend, indentLine]
    | cons c line =>
      have hc : c ≠ '\n' := fun heq => hline (heq ▸ List.mem_cons_self)
      simp [indentLine, atLineEnd, hc]

/-- On the first line nothing is put in, and a line break behind the text is not seen. -/
theorem lineWithin_widen (more : List Char) {cs b : List Char} (h : LineWithin cs b) :
    LineWithin (widen cs ++ '\n' :: more) b := by
  have hline : ∀ cs, (widen cs ++ '\n' :: more).takeWhile (· != '\n') =
      cs.takeWhile (· != '\n') := by
    intro cs
    induction cs with
    | nil => rfl
    | cons c r ih =>
      by_cases hc : c = '\n'
      · rw [hc, widen]
        rfl
      · rw [widen, if_neg fun hbreak => hc hbreak.1, List.nil_append, List.cons_append,
          List.takeWhile_cons, List.takeWhile_cons, ih]
  rwa [LineWithin, hline]

/-- Blanks stay blanks. -/
theorem exists_widen_blanks {bs : List Char} (hbs : ∀ d ∈ bs, isBlank d = true) (rest : List Char) :
    ∃ bs', widen (bs ++ rest) = bs' ++ widen rest ∧
      (∀ d ∈ bs', isBlank d = true) ∧ ('\n' ∈ bs' ↔ '\n' ∈ bs) ∧ (bs ≠ [] → bs' ≠ []) := by
  induction bs with
  | nil => exact ⟨[], rfl, nofun, Iff.rfl, id⟩
  | cons b bs ih =>
    obtain ⟨hb, hbs⟩ := List.forall_mem_cons.mp hbs
    obtain ⟨bs', heq, hblank, hbreak, -⟩ := ih hbs
    refine ⟨b :: ((if b = '\n' ∧ atLineEnd (bs ++ rest) = false then List.replicate 4 ' ' else
      []) ++ bs'), ?_, ?_, ?_, fun _ => List.cons_ne_nil _ _⟩
    · rw [List.cons_append, widen, heq]
      simp
    · refine List.forall_mem_cons.mpr ⟨hb, List.forall_mem_append.mpr ⟨?_, hblank⟩⟩
      split
      · simp [isBlank]
      · nofun
    · rw [List.mem_cons, List.mem_cons, List.mem_append, hbreak]
      split <;> simp

theorem atLineEnd_append {w : List Char} (h : w ≠ []) (rest : List Char) :
    atLineEnd (w ++ rest) = atLineEnd w := by
  rw [atLineEnd, atLineEnd, List.head?_append_of_ne_nil _ h]

theorem EndsSolid.ne_nil {w : List Char} (h : EndsSolid w) : w ≠ [] := by
  rintro rfl
  obtain ⟨_, hlast, -⟩ := h
  cases hlast

theorem EndsSolid.append {w : List Char} (h : EndsSolid w) (v : List Char) :
    EndsSolid (v ++ w) := by
  obtain ⟨d, hlast, hd⟩ := h
  exact ⟨d, by rw [List.getLast?_append, hlast]; rfl, hd⟩

theorem widen_concat {w : List Char} (h : EndsSolid w) (rest : List Char) :
    widen (w ++ rest) = widen w ++ widen rest ∧
      EndsSolid (widen w) := by
  induction w with
  | nil => exact absurd rfl h.ne_nil
  | cons c w ih =>
    cases w with
    | nil =>
      obtain ⟨e, he, hc⟩ := h
      obtain rfl : c = e := Option.some.inj he
      simp [widen, ne_newline_of_solid hc, EndsSolid, hc]
    | cons d w =>
      obtain ⟨hcut, hsolid⟩ := ih h.of_cons
      rw [List.cons_append, widen, widen, hcut, atLineEnd_append (List.cons_ne_nil d w)]
      exact ⟨by simp, (hsolid.append _).append [c]⟩

theorem reflow_concat (column : Nat) {w : List Char} (h : EndsSolid w) (n : Nat) :
    reflow column n (w ++ [';']) = reflow column n w ++ [';'] ∧ EndsSolid (reflow column n w) := by
  induction w generalizing n with
  | nil => exact absurd rfl h.ne_nil
  | cons c w ih =>
    cases w with
    | nil =>
      obtain ⟨e, he, hc⟩ := h
      obtain rfl : c = e := Option.some.inj he
      rw [List.singleton_append, reflow_of_solid hc, reflow_of_solid hc,
        reflow_of_solid (by decide)]
      exact ⟨by simp, c, by simp, hc⟩
    | cons d w =>
      obtain ⟨hcut, hsolid⟩ := ih h.of_cons 0
      by_cases hc : c = '\n'
      · obtain ⟨hcut, hsolid⟩ := ih h.of_cons column
        rw [hc, List.cons_append, reflow_newline (by simp), reflow_newline (by simp), hcut]
        exact ⟨rfl, hsolid.append ['\n']⟩
      by_cases hpass : Passes n c
      · obtain ⟨m, hm⟩ := exists_of_passes column hpass
        rw [List.cons_append, (hm _).2, (hm _).2]
        exact ih h.of_cons m
      · rw [List.cons_append, reflow_of_not_passes hc hpass, reflow_of_not_passes hc hpass, hcut,
          atLineEnd_append hsolid.ne_nil]
        split
        · exact ⟨rfl, hsolid⟩
        · exact ⟨rfl, hsolid.append [c]⟩

/-! ### Pieces -/

namespace Token

section Steps

variable {lineStart : Bool} {c : Char} {r : List Char} {t : Cut (c :: r)}

/-- A token on one line is cut again, with what follows it laid out. -/
theorem laid_token (column : Nat) (more : List Char) {kind : Token.Kind}
    (h : Piece.next lineStart c r = .ok (.token kind, t)) (hunbroken : '\n' ∉ t.read) :
    widen (reflow column 0 (c :: r)) = t.read ++ widen (reflow column 0 t.rest) ∧
      IsCut lineStart ⟨.token kind, t.read⟩ (widen (reflow column 0 t.rest) ++ '\n' :: more) := by
  obtain ⟨hblank, hat⟩ := Piece.tokenAt_of_next h
  have hreflow := (isCut_of_unmoved h hblank hat.endsSolid
    (.of_unbroken hunbroken : Unmoved column t.read)).1
  obtain ⟨a, ha, -⟩ := exists_read_eq_cons t
  obtain ⟨t', hnext', hread', hrest'⟩ := Piece.next_local h ha
    (lineWithin_widen more (lineWithin_reflow column t.rest))
    fun hc => absurd (hblank.symm.trans hc) Bool.false_ne_true
  refine ⟨by rw [hreflow, widen_append hunbroken], c, _, t', ?_, hnext', hread'.trans ha.symm,
    hrest'⟩
  rw [ha]
  rfl

/-- Blanks before something else are cut again, as other blanks. -/
theorem laid_blank (column : Nat) (more : List Char)
    (h : Piece.next lineStart c r = .ok (.blank, t)) (hmore : t.rest ≠ []) :
    ∃ bs, widen (reflow column 0 (c :: r)) = bs ++ widen (reflow column 0 t.rest) ∧
      IsCut lineStart ⟨.blank, bs⟩ (widen (reflow column 0 t.rest) ++ '\n' :: more) ∧
      Piece.lineStartAfter lineStart ⟨.blank, bs⟩ =
        Piece.lineStartAfter lineStart ⟨.blank, t.read⟩ := by
  obtain ⟨hc, rfl⟩ : isBlank c = true ∧ t = Cut.run isBlank c r := by
    cases Piece.nextAt_of_next h with
    | blank hc => exact ⟨hc, rfl⟩
    | comment _ hcomment => cases Piece.commentAt_of_comment? hcomment
  obtain ⟨d, s, hds⟩ := List.exists_cons_of_ne_nil hmore
  have hd : isBlank d = false := head_dropWhile_fails isBlank r d (congrArg List.head? hds)
  have hall : ∀ e ∈ (Cut.run isBlank c r).read, isBlank e = true :=
    List.forall_mem_cons.mpr ⟨hc, fun e => List.mem_takeWhile_imp⟩
  obtain ⟨bs, hbs, hblank, hbreak, hne⟩ := exists_reflow_blanks column 0 hall hd s
  obtain ⟨bs', hbs', hblank', hbreak', hne'⟩ :=
    exists_widen_blanks hblank (reflow column 0 (d :: s))
  refine ⟨bs', ?_, ?_, lineStartAfter_congr rfl (hbreak'.trans hbreak)⟩
  · rw [hds, ← hbs', ← hbs, ← hds, Cut.read_append_rest]
  · obtain ⟨b, bs', rfl⟩ := List.exists_cons_of_ne_nil (hne' (hne rfl (List.cons_ne_nil _ _)))
    obtain ⟨hb, hblank'⟩ := List.forall_mem_cons.mp hblank'
    refine isCut_blank hb hblank' fun e he => ?_
    rw [hds, reflow_of_solid hd, widen] at he
    exact (Option.some.inj he) ▸ hd

end Steps

/-- A semicolon as a piece. -/
def semicolon : Piece :=
  ⟨.token .punct, [';']⟩

/-- A token on one line, or blanks. -/
def Piece.IsInline (p : Piece) : Prop :=
  p.kind = .blank ∨ p.isToken = true ∧ '\n' ∉ p.text

/-- **Code with a semicolon, laid out.** The text behind it starts with a line break. The tokens of
the code are those that it had, at other places and with other blanks between them. -/
theorem exists_laid (column : Nat) {lineStart : Bool} {cs more : List Char} {ps : List Piece}
    {T : Place → List Token → Prop} (h : pieces lineStart cs = .ok (ps ++ [semicolon]))
    (hps : ∀ p ∈ ps, p.IsInline) (hlast : ps.getLast?.all Piece.isToken = true)
    (hmore : ∀ lineStart p, ∃ rs, pieces lineStart ('\n' :: more) = .ok rs ∧
      T p (ofPieces p [] [] rs)) (p : Place) (gap : List Char) (hgap : ps = [] → gap = []) :
    ∃ qs run semi rest,
      pieces lineStart (widen (reflow column 0 cs) ++ '\n' :: more) = .ok qs ∧
      ofPieces p gap [] qs = run ++ semi :: rest ∧ run.map form = ps.filterMap Piece.form? ∧
      (ps.head?.any Piece.isToken = true →
        ∀ t ∈ run.head?, t.gap = String.ofList gap ∧ t.column = p.column) ∧
      (run.flatMap fun t => t.gap.toList ++ t.text.toList) ++ [';'] =
        gap ++ widen (reflow column 0 cs) ∧
      semi.Shows .punct ";" ∧ T (p.advance (widen (reflow column 0 cs))) rest := by
  -- The blanks that were passed over are kept in `gap` until a token takes them.
  induction ps generalizing lineStart cs p gap with
  | nil =>
    obtain rfl : [';'] = cs := spell_pieces h
    obtain rfl := hgap rfl
    obtain ⟨rs, hrs, hT⟩ := hmore (Piece.lineStartAfter lineStart semicolon) (p.advance [';'])
    have hcut : IsCut lineStart semicolon ('\n' :: more) := by
      refine isCut_operator (p := ";") (by decide) (by decide) ?_
      rintro d ⟨⟩
      exact ends_of_isBlank (by decide)
    have hlaid : widen (reflow column 0 [';']) = [';'] := by
      rw [reflow_of_solid (by decide), reflow_nil]
      rfl
    rw [hlaid]
    exact ⟨_, [], _, _, hcut.pieces_eq hrs, rfl, rfl, nofun, rfl, ⟨rfl, rfl, rfl⟩, hT⟩
  | cons q ps ih =>
    obtain ⟨c, r, t, rfl, hnext, hread, hrest⟩ := exists_next_of_pieces h
    obtain ⟨kind, text⟩ := q
    obtain rfl : t.read = text := hread
    obtain ⟨hq, hinline⟩ := List.forall_mem_cons.mp hps
    have hlast' : ps.getLast?.all Piece.isToken = true := by
      cases ps with
      | nil => rfl
      | cons => simpa using hlast
    rcases hq with hq | ⟨htoken, hunbroken⟩
    · obtain rfl : kind = .blank := hq
      have hne : t.rest ≠ [] := by
        intro hnil
        rw [hnil] at hrest
        unfold pieces at hrest
        simp at hrest
      obtain ⟨bs, hlaid, hcut, hstart⟩ := laid_blank column more hnext hne
      obtain ⟨qs, run, semi, rest, hqs, htokens, hforms, -, htext, hsemi, hT⟩ :=
        ih hrest hinline hlast' (p.advance bs) (gap ++ bs) (by rintro rfl; cases hlast)
      rw [← hstart] at hqs
      refine ⟨⟨.blank, bs⟩ :: qs, run, semi, rest, ?_, ?_, hforms, nofun, ?_, hsemi, ?_⟩
      · rw [hlaid, List.append_assoc]
        exact hcut.pieces_eq hqs
      · rwa [ofPieces_blank]
      · rw [htext, hlaid, List.append_assoc]
      · rwa [hlaid, Place.advance_append]
    · obtain ⟨tokenKind, rfl⟩ : ∃ tokenKind, kind = .token tokenKind :=
        (Piece.cases_isToken ⟨kind, t.read⟩).resolve_right (by simp [htoken])
      obtain ⟨hlaid, hcut⟩ := laid_token column more hnext hunbroken
      obtain ⟨qs, run, semi, rest, hqs, htokens, hforms, -, htext, hsemi, hT⟩ :=
        ih hrest hinline hlast' (p.advance t.read) [] fun _ => rfl
      refine ⟨⟨.token tokenKind, t.read⟩ :: qs, _ :: run, semi, rest, ?_,
        congrArg (_ :: ·) htokens, ?_, fun _ _ ht => ?_, ?_, hsemi, ?_⟩
      · rw [hlaid, List.append_assoc]
        exact hcut.pieces_eq hqs
      · rw [List.map_cons, hforms]
        rfl
      · cases ht
        exact ⟨rfl, rfl⟩
      · rw [List.flatMap_cons, List.append_assoc, htext, hlaid]
        simp
      · rwa [hlaid, Place.advance_append]

/-! ### Code that is ended -/

/-- The text is code without comments, from a token to a token, none of which spans lines. It is
ended by the semicolon behind it and by no other. -/
structure IsEnded (text : List Char) : Prop where
  solid : Solid text
  ended : ∃ ps, pieces true (text ++ [';']) = .ok (ps ++ [semicolon]) ∧ (∀ p ∈ ps, p.IsInline) ∧
    Lookahead.countUntil false (·.isPunct ";") 0
        (((ps ++ [semicolon]).filterMap Piece.form?).map Lookahead.Token.ofForm) =
      .ok (ps.filterMap Piece.form?).length

/-- What stands on the page. -/
theorem IsEnded.onPage_eq {text : List Char} (h : IsEnded text) (column : Nat) :
    onPage 4 (reindent column text) ++ [';'] =
        widen (reflow column 0 (text ++ [';'])) ∧
      Solid (onPage 4 (reindent column text)) := by
  obtain ⟨first, rest, hlines, htidy⟩ := reindent_tidy column text
  obtain ⟨hfirst, hlast⟩ := h.solid
  have hends : EndsSolid text := by
    simpa [EndsSolid, Option.any_eq_true] using hlast
  obtain ⟨c, hc, hsolid⟩ := (Option.any_eq_true _ _).mp hfirst
  obtain ⟨r, rfl⟩ := List.head?_eq_some_iff.mp hc
  rw [Bool.not_eq_true'] at hsolid
  obtain ⟨hreflow, hends'⟩ := reflow_concat column hends 0
  have hpage : onPage 4 (reindent column (c :: r)) = widen (reflow column 0 (c :: r)) := by
    rw [hlines, onPage_eq_widen fun line hline => (htidy line hline).unbroken, ← hlines,
      intercalate_reindent, List.dropWhile_cons_of_neg (by simp [hsolid])]
  obtain ⟨hwiden, hends'⟩ := widen_concat hends' [';']
  rw [hpage, hreflow, hwiden]
  refine ⟨rfl, ?_, by simpa [EndsSolid, Option.any_eq_true] using hends'⟩
  rw [reflow_of_solid hsolid, widen]
  simp [hsolid]

/-- The pieces of code that is ended start and end with a token. -/
theorem IsEnded.isToken {text : List Char} {ps : List Piece} (h : Solid text)
    (hps : pieces true (text ++ [';']) = .ok (ps ++ [semicolon])) (hinline : ∀ p ∈ ps, p.IsInline) :
    ps.head?.any Piece.isToken = true ∧ ps.getLast?.all Piece.isToken = true := by
  have htext : ps.flatMap Piece.text = text := by
    have hspell := spell_pieces hps
    rw [List.flatMap_append] at hspell
    exact List.append_inj_left' hspell rfl
  have htoken : ∀ p ∈ ps, ∀ d ∈ p.text, (!isBlank d) = true → p.isToken = true := by
    intro p hp d hd hsolid
    refine ((hinline p hp).resolve_left fun hblank => ?_).1
    rw [(fits_of_mem_pieces hps p (List.mem_append_left _ hp)).blank hblank d hd] at hsolid
    cases hsolid
  have hne : ∀ p ∈ ps, p.text ≠ [] := fun p hp =>
    (fits_of_mem_pieces hps p (List.mem_append_left _ hp)).text_ne_nil
  obtain ⟨⟨c, hc, hfirst⟩, d, hd, hlast⟩ :=
    And.imp (Option.any_eq_true _ _).mp (Option.any_eq_true _ _).mp h
  constructor
  · cases ps with
    | nil => cases htext; cases hc
    | cons first more =>
      rw [← htext, List.flatMap_cons,
        List.head?_append_of_ne_nil _ (hne first List.mem_cons_self)] at hc
      exact htoken first List.mem_cons_self c (List.mem_of_head? hc) hfirst
  · refine (Option.all_eq_true _ _).mpr fun last hmem => ?_
    obtain ⟨front, rfl⟩ := List.getLast?_eq_some_iff.mp hmem
    have hmem := List.mem_append_right front (List.mem_singleton_self last)
    rw [← htext, List.flatMap_append, List.flatMap_singleton,
      List.getLast?_append_of_ne_nil _ (hne last hmem)] at hd
    exact htoken last hmem d (List.mem_of_getLast? hd) hlast

/-- **A value on a page**, with its semicolon and the blanks behind it. It starts in the column
where it stands, its tokens spell it, and the first semicolon outside of brackets is its own. -/
theorem Lexes.value {text ws cs : List Char} {T : Place → List Token → Prop} (h : Lexes cs T)
    (hended : IsEnded text) (column : Nat) (hws : ws.all isBlank = true) :
    Lexes (onPage 4 (reindent column text) ++ ';' :: '\n' :: (ws ++ cs)) fun p ts =>
      ∃ t run semi rest, t.column = p.column ∧
        (spell (t :: run)).toList = onPage 4 (reindent column text) ∧
        (∀ after, Lookahead.countUntil false (·.isPunct ";") 0 (t :: run ++ semi :: after) =
          .ok (t :: run).length) ∧ semi.Shows .punct ";" ∧
        T ((p.advance (onPage 4 (reindent column text) ++ [';'])).advance ('\n' :: ws)) rest ∧
        ts = t :: run ++ semi :: rest := by
  obtain ⟨hpage, hsolid⟩ := hended.onPage_eq column
  -- The pieces of the value by itself. On the page it is cut at the same places.
  obtain ⟨ps, hps, hinline, hcount⟩ := hended.ended
  obtain ⟨hfirst, hlast⟩ := IsEnded.isToken hended.solid hps hinline
  obtain ⟨first, more, rfl⟩ : ∃ first more, ps = first :: more := by
    cases ps with
    -- There is a token, since the first piece is one.
    | nil => cases hfirst
    | cons first more => exact ⟨first, more, rfl⟩
  refine ⟨fun d hd => ?_, fun lineStart p gap => ?_⟩
  · obtain ⟨e, he, hsolid⟩ := (Option.any_eq_true _ _).mp hsolid.1
    rw [List.head?_append, he] at hd
    cases hd
    simpa using hsolid
  · obtain ⟨qs, run, semi, rest, hqs, htokens, hforms, hhead, htext, hsemi, hT⟩ :=
      exists_laid column (pieces_of_head_isToken hps hfirst lineStart) hinline hlast
        (fun lineStart p => h.blanks ('\n' :: ws) hws lineStart p []) p gap nofun
    rw [← hpage] at hqs htext hT
    cases run with
    | nil =>
      have hform : (first :: more).filterMap Piece.form? ≠ [] := by
        obtain ⟨kind, hkind⟩ := first.cases_isToken.resolve_right (by simp_all)
        simp [Piece.form?, hkind]
      exact absurd hforms.symm hform
    | cons t run =>
      obtain ⟨hgap, hcolumn⟩ := hhead hfirst t rfl
      refine ⟨qs, by simpa using hqs, t, run, semi, rest, hcolumn, ?_, fun after => ?_, hsemi, ?_,
        htokens⟩
      · rw [← List.append_assoc] at htext
        simpa [toList_spell, hgap] using List.append_cancel_right htext
      · -- Counting up to the semicolon looks at forms only, and these are the forms of the line.
        have hall : (t :: run ++ [semi]).map form = (((first :: more ++ [semicolon]).filterMap
            Piece.form?).map Lookahead.Token.ofForm).map form := by
          rw [List.map_append, hforms, List.filterMap_append, List.map_map,
            List.map_singleton, show form semi = (.punct, ";") by rw [form, hsemi.kind, hsemi.text]]
          exact (List.map_id _).symm
        rw [← hforms, List.length_map] at hcount
        rw [List.append_cons]
        exact countUntil_append_of_form (fun x => x.1 == .punct && x.2 == ";") hall hcount
      · simpa using hT

end Token

end ClassSugar
