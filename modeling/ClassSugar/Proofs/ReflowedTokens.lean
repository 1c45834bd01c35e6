import ClassSugar.Proofs.LineComposition
import ClassSugar.Proofs.Reflow
import ClassSugar.Proofs.RenamedTokens
import ClassSugar.Proofs.VerbatimLiterals

/-!
# The tokens of code that is laid out anew

Laying out code anew changes the blanks between its tokens, and the comments, but it does not know
where tokens start and end. A token that spans lines can lose blanks at its line breaks: blanks at
the end of a line, a carriage return among them, and the spaces and tabs in the first columns of the
next. Exactly then the code has other tokens than before (`reindent_tokens_iff`).

The pieces of the code are followed one by one. Blanks stay blanks and comments stay comments
(`exists_recut_of_passed`), a token at which nothing is lost is cut again (`isCut_of_unmoved`), and
at the first token that has lost something no token of the same text stands
(`unmoved_of_pieces_reflow`).
-/

namespace ClassSugar

open ClassSugar.Text ClassSugar.Token ClassSugar.Renaming

/-! ### How tokens end -/

namespace Token

/-- **No token ends with a blank.** -/
theorem Piece.TokenAt.endsSolid {c : Char} {r : List Char} {kind : Token.Kind} {t : Cut (c :: r)}
    (h : Piece.TokenAt c r kind t) : EndsSolid t.read := by
  obtain ⟨d, hlast, hd, -⟩ := exists_getLast?_token h
  exact ⟨d, hlast, hd⟩

/-- A token that spans lines is a literal, and starts as no comment does. -/
theorem Piece.TokenAt.head_ne_of_newline {c : Char} {r : List Char} {kind : Token.Kind}
    {t : Cut (c :: r)} (h : Piece.TokenAt c r kind t) (hbreak : '\n' ∈ t.read) :
    c ≠ '/' ∧ c ≠ '#' := by
  cases h with
  | string ho hclose =>
    obtain ⟨marks, r', hopens⟩ := Opens.of_of? ho
    have hspell := hopens.spell
    cases marks with
    | nil =>
      obtain ⟨rfl, -⟩ := List.cons.inj hspell
      decide
    | cons m marks =>
      obtain ⟨rfl, -⟩ := List.cons.inj hspell
      have hmark := hopens.areMarks c List.mem_cons_self
      refine ⟨?_, ?_⟩ <;> rintro rfl <;> cases hmark
  | char hquote hrest =>
    rw [hquote]
    decide
  | number ho hquote hnumber =>
    rcases forall_mem_numberRest_of_startsNumber hnumber _ hbreak with hchar | hdot
    · exact absurd hchar (by decide)
    · exact absurd hdot (by decide)
  | word ho hquote hnumber hname =>
    exact absurd ((IsName.of_run hname).isWordPart _ hbreak) (by decide)
  | @punct p ho hquote hnumber hname hp =>
    have hmem := List.mem_of_find?_eq_some hp
    exact absurd (read_of_punct? hp ▸ hbreak) (newline_notMem_puncts p hmem)

end Token

/-! ### What is no token -/

section Passed

variable {column : Nat} {lineStart : Bool} {c : Char} {r : List Char}

theorem lineStartAfter_congr {p q : Piece} (htoken : p.isToken = q.isToken)
    (hbreak : '\n' ∈ p.text ↔ '\n' ∈ q.text) :
    Piece.lineStartAfter lineStart p = Piece.lineStartAfter lineStart q := by
  have hcontains : p.text.contains '\n' = q.text.contains '\n' := by
    rw [Bool.eq_iff_iff, List.contains_iff_mem, List.contains_iff_mem]
    exact hbreak
  rw [Piece.lineStartAfter, Piece.lineStartAfter, htoken, hcontains]

/-- A block comment stays one: its closing is not lost, and none comes up before it. -/
theorem exists_reflow_block (column n : Nat) {a : List Char} (h : BlockBody a) (rest : List Char) :
    ∃ a', reflow column n (a ++ rest) = a' ++ reflow column 0 rest ∧ BlockBody a' ∧
      ('\n' ∈ a' ↔ '\n' ∈ a) := by
  induction h generalizing n with
  | close =>
    refine ⟨['*', '/'], ?_, .close, Iff.rfl⟩
    rw [List.cons_append, List.singleton_append, reflow_of_solid (by decide),
      reflow_of_solid (by decide)]
    rfl
  | @cons c a hopen h ih =>
    by_cases hc : c = '\n'
    · obtain ⟨a', heq, hbody, -⟩ := ih column
      refine ⟨'\n' :: a', ?_, .cons (fun heq => absurd heq (by decide)) hbody, by simp [hc]⟩
      have hne : a ++ rest ≠ [] := by
        cases h <;> exact List.cons_ne_nil _ _
      rw [hc, List.cons_append, reflow_newline hne, heq]
      rfl
    have hmem : '\n' ∈ c :: a ↔ '\n' ∈ a := by simp [Ne.symm hc]
    rcases cases_reflow column n (a ++ rest) hc with
      ⟨-, m, hreflow⟩ | ⟨-, -, -, hreflow⟩ | ⟨-, -, hreflow⟩
    · obtain ⟨a', heq, hbody, hbreak⟩ := ih m
      exact ⟨a', by rw [List.cons_append, hreflow, heq], hbody, hbreak.trans hmem.symm⟩
    · obtain ⟨a', heq, hbody, hbreak⟩ := ih 0
      exact ⟨a', by rw [List.cons_append, hreflow, heq], hbody, hbreak.trans hmem.symm⟩
    · obtain ⟨a', heq, hbody, hbreak⟩ := ih 0
      refine ⟨c :: a', by rw [List.cons_append, hreflow, heq]; rfl, .cons ?_ hbody, ?_⟩
      · -- A slash behind the star stood there before.
        intro hstar hslash
        refine hopen hstar ?_
        obtain ⟨s, rfl⟩ := List.head?_eq_some_iff.mp hslash
        have hline := lineWithin_reflow column (a ++ rest)
        rw [heq] at hline
        obtain ⟨more, hmore, -⟩ := hline.exists_cons (by decide)
        cases h with
        | close | cons => exact congrArg List.head? hmore
      · rw [List.mem_cons, List.mem_cons, hbreak]

/-- **Blanks stay blanks and comments stay comments**, unless nothing follows the blanks. -/
theorem exists_recut_of_passed (column : Nat) {kind : Piece.Kind} {t : Cut (c :: r)}
    (h : Piece.next lineStart c r = .ok (kind, t)) (hpassed : Piece.isToken ⟨kind, t.read⟩ = false)
    (hmore : isBlank c = true → t.rest ≠ []) :
    ∃ p : Piece, p.isToken = false ∧ reflow column 0 (c :: r) = p.text ++ reflow column 0 t.rest ∧
      IsCut lineStart p (reflow column 0 t.rest) ∧
      Piece.lineStartAfter lineStart p = Piece.lineStartAfter lineStart ⟨kind, t.read⟩ := by
  have hsplit := t.read_append_rest
  cases Piece.nextAt_of_next h with
  | blank hblank =>
    obtain ⟨d, s, hrest⟩ := List.exists_cons_of_ne_nil (hmore hblank)
    have hd : isBlank d = false := head_dropWhile_fails isBlank r d (congrArg List.head? hrest)
    have hall : ∀ e ∈ (Cut.run isBlank c r).read, isBlank e = true :=
      List.forall_mem_cons.mpr ⟨hblank, fun e => List.mem_takeWhile_imp⟩
    rw [hrest] at hsplit ⊢
    obtain ⟨bs, heq, hbs, hbreak, hne⟩ :=
      exists_reflow_blanks column 0 hall hd s
    obtain ⟨b, bs, rfl⟩ := List.exists_cons_of_ne_nil (hne rfl (List.cons_ne_nil _ _))
    obtain ⟨hb, hbs⟩ := List.forall_mem_cons.mp hbs
    refine ⟨⟨.blank, b :: bs⟩, rfl, by rw [← hsplit, heq], ?_, lineStartAfter_congr rfl hbreak⟩
    refine isCut_blank hb hbs fun e he => ?_
    rw [reflow_of_solid hd] at he
    exact (Option.some.inj he) ▸ hd
  | comment hblank hcomment =>
    have hat := Piece.commentAt_of_comment? hcomment
    generalize t.read = a at hat hsplit hpassed ⊢
    generalize t.rest = b at hat hsplit ⊢
    rw [← hsplit]
    cases hat with
    | @line a b hopen hline hend =>
      -- It ends with its line, and so do the blanks at its end.
      have hb : atLineEnd b = true := by
        cases b with
        | nil => rfl
        | cons d s => exact atLineEnd_cons.mpr (hend d rfl)
      have hc : isBlank c = false := hblank
      have htrim : trimEnd (c :: a) = c :: trimEnd a := trimEnd_cons ⟨c, List.mem_cons_self, hc⟩
      have hunbroken : '\n' ∉ trimEnd (c :: a) := (tidy_trimEnd hline).unbroken
      refine ⟨⟨.line, trimEnd (c :: a)⟩, rfl, ?_, ?_, ?_⟩
      · rw [reflow_append_line hline hb, stripColumns_zero]
      · rw [htrim] at hunbroken ⊢
        refine isCut_of_commentAt
          (.line (hopen.imp_left fun hslashes => ?_) hunbroken fun d hd => ?_)
        · obtain ⟨rfl, s, rfl⟩ := List.cons_prefix_cons.mp hslashes
          refine List.cons_prefix_cons.mpr ⟨rfl, ?_⟩
          rw [List.singleton_append, trimEnd_cons ⟨'/', List.mem_cons_self, by decide⟩]
          exact ⟨_, rfl⟩
        · have hend' := atLineEnd_reflow column 0 hb
          obtain ⟨s, hs⟩ := List.head?_eq_some_iff.mp hd
          rw [hs] at hend'
          exact atLineEnd_cons.mp hend'
      · exact lineStartAfter_congr rfl (iff_of_false hunbroken hline)
    | @block a b hopen hbody =>
      subst hopen
      obtain ⟨a', heq, hbody', hbreak⟩ := exists_reflow_block column 0 hbody b
      refine ⟨⟨.block, '/' :: '*' :: a'⟩, rfl, ?_, isCut_of_commentAt (.block rfl hbody'), ?_⟩
      · rw [List.cons_append, List.cons_append, reflow_of_solid hblank,
          reflow_of_solid (by decide), heq]
        rfl
      · refine lineStartAfter_congr rfl ?_
        simp [hbreak]
  | token => cases hpassed

end Passed

/-! ### Tokens -/

section Tokens

variable {column : Nat} {lineStart : Bool} {c : Char} {r : List Char}

theorem isCut_pieces {p : Piece} {b : List Char} (h : IsCut lineStart p b) :
    pieces lineStart (p.text ++ b) =
      (pieces (Piece.lineStartAfter lineStart p) b).map (p :: ·) := by
  obtain ⟨c, r, t, hcs, hnext, hread, hrest⟩ := h
  have hpiece : (⟨p.kind, t.read⟩ : Piece) = p := by rw [hread]
  rw [hcs, pieces_of_next hnext, hpiece, hrest]

/-- **A token at which nothing is lost is cut again.** -/
theorem isCut_of_unmoved {kind : Piece.Kind} {t : Cut (c :: r)}
    (h : Piece.next lineStart c r = .ok (kind, t)) (hc : isBlank c = false)
    (hends : EndsSolid t.read) (hunmoved : Unmoved column t.read) :
    reflow column 0 (c :: r) = t.read ++ reflow column 0 t.rest ∧
      IsCut lineStart ⟨kind, t.read⟩ (reflow column 0 t.rest) := by
  obtain ⟨a, ha, -⟩ := exists_read_eq_cons t
  obtain ⟨t', hnext', hread', hrest'⟩ := Piece.next_local h ha (lineWithin_reflow column t.rest)
    fun hblank => absurd (hc.symm.trans hblank) Bool.false_ne_true
  refine ⟨?_, c, _, t', by rw [ha]; rfl, hnext', hread'.trans ha.symm, hrest'⟩
  exact (congrArg (reflow column 0) t.read_append_rest.symm).trans
    (reflow_append_of_unmoved hunmoved hends fun _ _ => not_passes_zero)

/-- **Where a token is found again, nothing was lost at it.** -/
theorem unmoved_of_pieces_reflow {kind : Token.Kind} {t : Cut (c :: r)} {ps qs : List Piece}
    (hc : isBlank c = false) (h : Piece.TokenAt c r kind t)
    (hpieces : pieces lineStart (reflow column 0 (c :: r)) = .ok ps)
    (hfirst : ps.filter Piece.isToken = ⟨.token kind, t.read⟩ :: qs) : Unmoved column t.read := by
  by_cases hbreak : '\n' ∈ t.read
  · obtain ⟨hslash, hhash⟩ := h.head_ne_of_newline hbreak
    rw [reflow_of_solid hc] at hpieces
    cases ps with
    | nil => cases hfirst
    | cons q ps =>
      obtain ⟨_, r', t', hcons, hnext, hread, -⟩ := exists_next_of_pieces hpieces
      obtain ⟨rfl, rfl⟩ := List.cons.inj hcons
      -- The text starts as before, with a quote or a mark, and so with a token.
      have htoken : q.isToken = true := by
        unfold Piece.isToken
        generalize q.kind = kind at hnext
        cases Piece.nextAt_of_next hnext with
        | blank hblank => exact absurd (hc.symm.trans hblank) Bool.false_ne_true
        | comment _ hcomment =>
          rw [comment?_eq_none_of_ne hslash hhash] at hcomment
          cases hcomment
        | token => rfl
      rw [List.filter_cons_of_pos htoken] at hfirst
      have hsame : t'.read = t.read := by rw [hread, (List.cons.inj hfirst).1]
      have hreflow : reflow column 0 (t.read ++ t.rest) = t.read ++ t'.rest := by
        rw [t.read_append_rest, ← hsame, t'.read_append_rest, reflow_of_solid hc]
      exact (unmoved_of_reflow_append hreflow h.endsSolid).1
  · exact .of_unbroken hbreak

theorem exists_map_cons_iff (x : Except Fault (List Piece)) {p q : Piece} (ps : List Piece)
    (h : [q].filter Piece.isToken = [p].filter Piece.isToken) :
    (∃ qs, x.map (q :: ·) = .ok qs ∧
        qs.filter Piece.isToken = (p :: ps).filter Piece.isToken) ↔
      ∃ qs, x = .ok qs ∧ qs.filter Piece.isToken = ps.filter Piece.isToken := by
  have hcons : ∀ qs : List Piece, (q :: qs).filter Piece.isToken =
      (p :: ps).filter Piece.isToken ↔ qs.filter Piece.isToken = ps.filter Piece.isToken := by
    intro qs
    rw [← List.singleton_append, List.filter_append, h, ← List.singleton_append (l := ps),
      List.filter_append, List.append_cancel_left_eq]
  cases x with
  | error fault =>
    -- Neither text is cut into pieces.
    constructor
    · rintro ⟨_, heq, _⟩
      cases heq
    · rintro ⟨_, heq, _⟩
      cases heq
  | ok qs =>
    constructor
    · rintro ⟨_, ⟨⟩, hsame⟩
      exact ⟨qs, rfl, (hcons qs).mp hsame⟩
    · rintro ⟨_, ⟨⟩, hsame⟩
      exact ⟨q :: qs, rfl, (hcons qs).mpr hsame⟩

/-- A text of blanks has no tokens. -/
theorem exists_pieces_of_blanks {cs : List Char} (h : ∀ d ∈ cs, isBlank d = true) :
    ∃ qs, pieces lineStart cs = .ok qs ∧ qs.filter Piece.isToken = [] := by
  cases cs with
  | nil => exact ⟨[], by unfold pieces; rfl, rfl⟩
  | cons c r =>
    obtain ⟨hc, hr⟩ := List.forall_mem_cons.mp h
    have hcut : IsCut lineStart ⟨.blank, c :: r⟩ [] := isCut_blank hc hr nofun
    have hnone : pieces (Piece.lineStartAfter lineStart ⟨.blank, c :: r⟩) [] = .ok [] := by
      unfold pieces
      rfl
    have hpieces := hcut.pieces_eq hnone
    rw [List.append_nil] at hpieces
    exact ⟨_, hpieces, rfl⟩

/-- Nothing but blanks is left of blanks at the end of the code. -/
theorem blank_of_mem_reflow {kind : Piece.Kind} {t : Cut (c :: r)} (hc : isBlank c = true)
    (h : Piece.next lineStart c r = .ok (kind, t)) (hnil : t.rest = []) :
    ∀ d ∈ reflow column 0 (c :: r), isBlank d = true := by
  rw [Piece.next, if_pos hc] at h
  cases h
  have hall : ∀ e ∈ c :: r, isBlank e = true :=
    List.forall_mem_cons.mpr ⟨hc, List.dropWhile_eq_nil_iff.mp hnil⟩
  exact fun d hd => hall d ((reflow_sublist column 0 _).subset hd)

/-- **The tokens among the pieces of code are found again exactly if nothing is lost at them.** -/
theorem pieces_reflow_iff {cs : List Char} {ps : List Piece} (h : pieces lineStart cs = .ok ps) :
    (∃ qs, pieces lineStart (reflow column 0 cs) = .ok qs ∧
        qs.filter Piece.isToken = ps.filter Piece.isToken) ↔
      ∀ p ∈ ps.filter Piece.isToken, Unmoved column p.text := by
  induction ps generalizing lineStart cs with
  | nil =>
    obtain rfl : [] = cs := spell_pieces h
    rw [reflow_nil]
    exact iff_of_true ⟨[], h, rfl⟩ nofun
  | cons p ps ih =>
    obtain ⟨c, r, t, rfl, hnext, hread, hrest⟩ := exists_next_of_pieces h
    obtain ⟨kind, text⟩ := p
    obtain rfl : t.read = text := hread
    rcases Piece.cases_isToken ⟨kind, t.read⟩ with ⟨tokenKind, hkind⟩ | hkind
    · obtain rfl : kind = .token tokenKind := hkind
      obtain ⟨hblank, htoken⟩ := Piece.tokenAt_of_next hnext
      have hcons : (⟨.token tokenKind, t.read⟩ :: ps).filter Piece.isToken =
          ⟨.token tokenKind, t.read⟩ :: ps.filter Piece.isToken := List.filter_cons_of_pos rfl
      by_cases hunmoved : Unmoved column t.read
      · obtain ⟨heq, hcut⟩ := isCut_of_unmoved hnext hblank htoken.endsSolid hunmoved
        rw [heq, isCut_pieces hcut, exists_map_cons_iff _ ps rfl, hcons, List.forall_mem_cons,
          and_iff_right hunmoved]
        exact ih hrest
      · rw [hcons, List.forall_mem_cons]
        refine iff_of_false ?_ fun hall => hunmoved hall.1
        rintro ⟨qs, hqs, hsame⟩
        exact hunmoved (unmoved_of_pieces_reflow hblank htoken hqs hsame)
    · have hdrop : (⟨kind, t.read⟩ :: ps).filter Piece.isToken = ps.filter Piece.isToken :=
        List.filter_cons_of_neg (by rw [hkind]; nofun)
      by_cases hlast : isBlank c = true ∧ t.rest = []
      · -- The code ends with these blanks, and nothing of it is left but blanks.
        rw [hlast.2] at hrest
        obtain rfl : ps = [] := by
          unfold pieces at hrest
          cases hrest
          rfl
        rw [hdrop]
        refine iff_of_true (exists_pieces_of_blanks ?_) nofun
        exact blank_of_mem_reflow hlast.1 hnext hlast.2
      · obtain ⟨q, hq, heq, hcut, hstart⟩ := exists_recut_of_passed column hnext hkind
          fun hblank hnil => hlast ⟨hblank, hnil⟩
        have hsame : [q].filter Piece.isToken = [⟨kind, t.read⟩].filter Piece.isToken := by
          simp [hq, hkind]
        rw [heq, isCut_pieces hcut, hstart, exists_map_cons_iff _ ps hsame, hdrop]
        exact ih hrest

end Tokens

/-! ### Code -/

/-- The piece that a token of a form is made of. -/
def Piece.ofForm (f : Token.Kind × String) : Piece :=
  ⟨.token f.1, f.2.toList⟩

theorem Piece.ofForm_injective : Function.Injective Piece.ofForm := by
  rintro ⟨kind, text⟩ ⟨kind', text'⟩ h
  obtain ⟨hkind, htext⟩ := Piece.mk.inj h
  exact Prod.ext (Piece.Kind.token.inj hkind) (String.toList_injective htext)

/-- The tokens that pieces make are the tokens among them, and the end of the source. -/
theorem exists_map_form_ofPieces (p : Place) (gap : List Char) (leading : List Comment)
    (ps : List Piece) :
    ∃ fs, (ofPieces p gap leading ps).map form = fs ++ [(.eof, "")] ∧
      fs.map Piece.ofForm = ps.filter Piece.isToken := by
  induction ps generalizing p gap leading with
  | nil => exact ⟨[], rfl, rfl⟩
  | cons piece ps ih =>
    rcases piece.cases_isToken with ⟨kind, hkind⟩ | hpassed
    · obtain ⟨fs, hforms, hpieces⟩ := ih (p.advance piece.text) [] []
      have htoken : piece.isToken = true := by rw [Piece.isToken, hkind]
      have hpiece : Piece.ofForm (kind, String.ofList piece.text) = piece := by
        rw [Piece.ofForm, String.toList_ofList, ← hkind]
      refine ⟨(kind, String.ofList piece.text) :: fs, ?_, ?_⟩
      · rw [ofPieces_of_token _ _ _ _ hkind, List.map_cons, hforms]
        rfl
      · rw [List.map_cons, hpieces, hpiece, List.filter_cons_of_pos htoken]
    · rw [ofPieces_of_not_token _ _ _ _ hpassed,
        List.filter_cons_of_neg (by rw [hpassed]; exact Bool.false_ne_true)]
      exact ih _ _ _

/-- Blanks at the start of code do not matter to its tokens. -/
theorem exists_pieces_dropWhile {cs : List Char} {ps : List Piece} (h : pieces true cs = .ok ps)
    {q : Char → Bool} (hq : ∀ c, q c = true → isBlank c = true) :
    ∃ ps', pieces true (cs.dropWhile q) = .ok ps' ∧
      ps'.filter Piece.isToken = ps.filter Piece.isToken := by
  have hdrop : (cs.dropWhile q).dropWhile isBlank = cs.dropWhile isBlank := by
    clear h
    induction cs with
    | nil => rfl
    | cons c r ih =>
      by_cases hc : q c = true
      · rw [List.dropWhile_cons_of_pos hc, List.dropWhile_cons_of_pos (hq c hc), ih]
      · rw [List.dropWhile_cons_of_neg hc]
  have hblanks : ∀ ws ps, (blanks ws ++ ps).filter Piece.isToken = ps.filter Piece.isToken := by
    intro ws ps
    rw [List.filter_append, blanks]
    split <;> rfl
  rw [pieces_eq_blanks_append] at h
  rw [pieces_eq_blanks_append, hdrop]
  cases hsolid : pieces true (cs.dropWhile isBlank) with
  | error fault => rw [hsolid] at h; cases h
  | ok rest =>
    rw [hsolid] at h
    cases h
    exact ⟨_, rfl, (hblanks _ rest).trans (hblanks _ rest).symm⟩

/-- **Code that is laid out anew has its tokens, unless one of them loses something at a line
break.** The lines in which code that started at a column is laid out, joined with line breaks, have
the kinds and texts of the tokens that the code had exactly if in none of these a blank stands
before a line break, or, where columns are taken away, a space or tab behind one. -/
theorem reindent_tokens_iff {text : String} {base : Nat} {ts : List Token}
    (h : tokenize text base = .ok ts) (column base' : Nat) :
    (∃ ts', tokenize (String.ofList (['\n'].intercalate (reindent column text.toList))) base' =
        .ok ts' ∧ ts'.map form = ts.map form) ↔
      ∀ t ∈ ts, Unmoved column t.text.toList := by
  obtain ⟨ps, hpieces, rfl⟩ := exists_pieces_of_tokenize h
  obtain ⟨ps', hpieces', hsame⟩ := exists_pieces_dropWhile hpieces
    (q := fun c => isBlank c && c != '\n') fun c hc => (Bool.and_eq_true_iff.mp hc).1
  obtain ⟨fs, hforms, hfs⟩ := exists_map_form_ofPieces (Place.start base) [] [] ps
  have hmoved : (∀ t ∈ ofPieces (Place.start base) [] [] ps, Unmoved column t.text.toList) ↔
      ∀ p ∈ ps'.filter Piece.isToken, Unmoved column p.text := by
    have hforall : (∀ t ∈ ofPieces (Place.start base) [] [] ps, Unmoved column t.text.toList) ↔
        ∀ f ∈ (ofPieces (Place.start base) [] [] ps).map form, Unmoved column f.2.toList :=
      ⟨fun hall => List.forall_mem_map.mpr hall, fun hall t ht => hall _ (List.mem_map_of_mem ht)⟩
    have hend : Unmoved column "".toList := .of_unbroken List.not_mem_nil
    rw [hforall, hforms, List.forall_mem_append, hsame, ← hfs, List.forall_mem_map]
    exact and_iff_left (List.forall_mem_singleton.mpr hend)
  rw [hmoved, ← pieces_reflow_iff hpieces', hforms, intercalate_reindent, tokenize,
    String.toList_ofList, hsame, ← hfs]
  cases pieces true (reflow column 0 (text.toList.dropWhile fun c => isBlank c && c != '\n')) with
  | error fault =>
    -- Neither text is cut into pieces.
    constructor
    · rintro ⟨_, heq, _⟩
      cases heq
    · rintro ⟨_, heq, _⟩
      cases heq
  | ok qs =>
    obtain ⟨gs, hforms', hgs⟩ := exists_map_form_ofPieces (Place.start base') [] [] qs
    constructor
    · rintro ⟨_, ⟨⟩, heq⟩
      rw [hforms', List.append_cancel_right_eq] at heq
      exact ⟨qs, rfl, by rw [← hgs, heq]⟩
    · rintro ⟨_, ⟨⟩, heq⟩
      rw [← hgs] at heq
      exact ⟨_, rfl, by rw [hforms', Piece.ofForm_injective.list_map heq]⟩

/-- A string that spans lines, the second of which is indented, and blanks and a comment at the ends
of other lines. -/
def foldedQuery : String :=
  "Run(@\"select\n  1\" , \n      2); // all \n"

theorem reindent_tokens_iff_foldedQuery :
    ∃ ts, tokenize foldedQuery 1 = .ok ts ∧
      (∃ ts', tokenize (String.ofList (['\n'].intercalate (reindent 0 foldedQuery.toList))) 1 =
        .ok ts' ∧ ts'.map form = ts.map form) ∧
      ¬∃ ts', tokenize (String.ofList (['\n'].intercalate (reindent 2 foldedQuery.toList))) 1 =
        .ok ts' ∧ ts'.map form = ts.map form := by
  have hrun : (tokenize foldedQuery 1).toOption.map (fun ts =>
      (ts.all fun t => decide (Unmoved 0 t.text.toList),
        ts.all fun t => decide (Unmoved 2 t.text.toList))) = some (true, false) := by
    decide +kernel
  obtain ⟨ts, h, hrun⟩ := exists_ok_of_map hrun
  obtain ⟨hkept, hmoved⟩ := Prod.mk.inj hrun
  refine ⟨ts, h, (reindent_tokens_iff h 0 1).mpr ?_, mt (reindent_tokens_iff h 2 1).mp ?_⟩
  · simpa using hkept
  · simpa using hmoved

end ClassSugar
