import ClassSugar.Proofs.LexedTokens

/-!
# Tokens line by line

A line break between two texts keeps them apart: if the first text has tokens, the tokens of both
together are those of the first, its end left out, and then those of the second, moved to where it
stands (`lex_append_newline`). Nothing is carried over a line break but the comments and blanks
before it, which ride on the next token. Positions are words, so this has a limit: both texts together
have to end below the largest word.

Three things are behind this. No piece of the first text looks over the line break for its end, so
all pieces are found again but for blanks at the end, which go on over the break
(`pieces_append_newline`). After the break a directive may start, as at the start of a source. And a
fault of the second text is told by its suffixes, which are as long as before
(`Fault.locate_append_newline`).
-/

namespace ClassSugar

open ClassSugar.Text

namespace Token

/-! ### Pieces before and after a line break -/

/-- A run of blanks as pieces: one, or none if there are no blanks. -/
def blanks (ws : List Char) : List Piece :=
  if ws = [] then [] else [⟨.blank, ws⟩]

theorem flatMap_text_blanks (ws : List Char) : (blanks ws).flatMap Piece.text = ws := by
  unfold blanks
  split
  · exact (‹ws = []›).symm
  · exact List.append_nil ws

/-- What blanks at the start of a line change. -/
theorem pieces_eq_blanks_append (cs : List Char) :
    pieces true cs =
      (pieces true (cs.dropWhile isBlank)).map (blanks (cs.takeWhile isBlank) ++ ·) := by
  cases cs with
  | nil =>
    unfold pieces
    rfl
  | cons c r =>
    by_cases hc : isBlank c = true
    · have hnext : Piece.next true c r = .ok (.blank, Cut.run isBlank c r) := if_pos hc
      have hstart : ∀ text, Piece.lineStartAfter true ⟨.blank, text⟩ = true := by
        intro text
        exact Bool.or_true _
      rw [List.takeWhile_cons_of_pos hc, List.dropWhile_cons_of_pos hc, pieces_of_next hnext,
        hstart]
      rfl
    · rw [List.takeWhile_cons_of_neg hc, List.dropWhile_cons_of_neg hc]
      cases pieces true (c :: r) <;> rfl

/-- Blanks, and then a line break with more blanks: it is one run. -/
theorem pieces_blanks_newline (lineStart : Bool) {ws : List Char} (hws : ∀ c ∈ ws, isBlank c = true)
    (more : List Char) :
    pieces lineStart (ws ++ '\n' :: more) = (pieces true (more.dropWhile isBlank)).map
      (⟨.blank, ws ++ '\n' :: more.takeWhile isBlank⟩ :: ·) := by
  obtain ⟨c, r, hcr⟩ : ∃ c r, ws ++ '\n' :: more = c :: r :=
    List.exists_cons_of_ne_nil (by simp)
  have hblank : isBlank c = true := by
    cases ws with
    | nil =>
      obtain ⟨rfl, -⟩ := List.cons.inj hcr
      exact isBlank_newline
    | cons d ws =>
      obtain ⟨rfl, -⟩ := List.cons.inj hcr
      exact hws d List.mem_cons_self
  have hpass : ∀ d ∈ ws ++ ['\n'], isBlank d = true :=
    List.forall_mem_append.mpr ⟨hws, List.forall_mem_singleton.mpr isBlank_newline⟩
  have hnext : Piece.next lineStart c r = .ok (.blank, Cut.run isBlank c r) := if_pos hblank
  -- The run reads all blanks before the break and all after it.
  have hread : (Cut.run isBlank c r).read = ws ++ '\n' :: more.takeWhile isBlank := by
    change c :: r.takeWhile isBlank = _
    rw [← List.takeWhile_cons_of_pos hblank, ← hcr, List.append_cons,
      List.takeWhile_append_of_pos hpass, ← List.append_cons]
  have hrest : (Cut.run isBlank c r).rest = more.dropWhile isBlank := by
    change r.dropWhile isBlank = _
    rw [← List.dropWhile_cons_of_pos hblank, ← hcr, List.append_cons,
      List.dropWhile_append_of_pos hpass]
  have hstart : Piece.lineStartAfter lineStart
      ⟨.blank, ws ++ '\n' :: more.takeWhile isBlank⟩ = true := by
    simp [Piece.lineStartAfter]
  rw [hcr, pieces_of_next hnext, hread, hrest, hstart]

/-- **Pieces before a line break are found again.** Only blanks at the end of the text go on over
the break; after it a directive may start. -/
theorem pieces_append_newline {lineStart : Bool} {cs : List Char} {ps : List Piece}
    (h : pieces lineStart cs = .ok ps) :
    ∃ front ws, ps = front ++ blanks ws ∧ (∀ c ∈ ws, isBlank c = true) ∧
      ∀ more, pieces lineStart (cs ++ '\n' :: more) = (pieces true (more.dropWhile isBlank)).map
        fun qs => front ++ ⟨.blank, ws ++ '\n' :: more.takeWhile isBlank⟩ :: qs := by
  induction ps generalizing lineStart cs with
  | nil =>
    obtain rfl : cs = [] := (spell_pieces h).symm
    exact ⟨[], [], rfl, List.forall_mem_nil _,
      pieces_blanks_newline lineStart (List.forall_mem_nil _)⟩
  | cons p ps ih =>
    obtain ⟨c, r, t, rfl, hnext, hread, hrest⟩ := exists_next_of_pieces h
    by_cases hlast : isBlank c = true ∧ t.rest = []
    · -- The text ends with this run of blanks.
      obtain ⟨hc, hnil⟩ := hlast
      rw [hnil] at hrest
      obtain rfl : ps = [] := by
        unfold pieces at hrest
        cases hrest
        rfl
      rw [Piece.next, if_pos hc] at hnext
      obtain ⟨hkind, rfl⟩ := Prod.mk.inj (Except.ok.inj hnext)
      have hall : ∀ d ∈ r, isBlank d = true := List.dropWhile_eq_nil_iff.mp hnil
      have htext : p.text = c :: r := by
        rw [← hread]
        exact congrArg (c :: ·) (List.takeWhile_eq_self_iff.mpr hall)
      have hws : ∀ d ∈ c :: r, isBlank d = true := List.forall_mem_cons.mpr ⟨hc, hall⟩
      have hp : p = ⟨.blank, c :: r⟩ := by rw [hkind, ← htext]
      exact ⟨[], c :: r, congrArg (fun p => [p]) hp, hws, pieces_blanks_newline lineStart hws⟩
    · obtain ⟨front, ws, rfl, hws, hmore⟩ := ih hrest
      refine ⟨p :: front, ws, rfl, hws, fun more => ?_⟩
      obtain ⟨a, ha, hr⟩ := exists_read_eq_cons t
      have hrun : isBlank c = true →
          ∀ d, (t.rest ++ '\n' :: more).head? = some d → isBlank d = false := by
        intro hc d hd
        rw [List.head?_append_of_ne_nil _ fun hnil => hlast ⟨hc, hnil⟩] at hd
        exact Piece.head_rest_of_isBlank hc hnext d hd
      obtain ⟨t', hnext', hread', hrest'⟩ :=
        Piece.next_local hnext ha (.append_newline t.rest more) hrun
      have hp : (⟨p.kind, t'.read⟩ : Piece) = p := by rw [hread', ← ha, hread]
      rw [← hr, List.cons_append, List.append_assoc, pieces_of_next hnext', hp, hrest', hmore]
      cases pieces true (more.dropWhile isBlank) <;> rfl

/-! ### Tokens before and after a line break -/

/-- The token with what was passed before its own gap and comments. -/
def after (gap : String) (leading : List Comment) (t : Token) : Token :=
  { t with gap := gap ++ t.gap, leading := leading ++ t.leading }

/-- What was passed already rides on the first token. -/
theorem ofPieces_append (p : Place) (gap gap' : List Char) (leading leading' : List Comment)
    (ps : List Piece) :
    ofPieces p (gap ++ gap') (leading ++ leading') ps =
      (ofPieces p gap' leading' ps).modifyHead (after (String.ofList gap) leading) := by
  induction ps generalizing p gap' leading' with
  | nil => simp [ofPieces, after, String.ofList_append]
  | cons piece ps ih =>
    rcases piece.cases_isToken with ⟨kind, hkind⟩ | hpassed
    · rw [ofPieces_of_token _ _ _ _ hkind, ofPieces_of_token _ _ _ _ hkind, List.modifyHead_cons,
        Piece.tokenAt, String.ofList_append]
      rfl
    · rw [ofPieces_of_not_token _ _ _ _ hpassed, ofPieces_of_not_token _ _ _ _ hpassed,
        List.append_assoc, List.append_assoc, ih]

/-- The walk over pieces goes on from what it has passed. No token of the pieces that it has passed
is the end of the source. -/
theorem exists_ofPieces_append {front : List Piece} (hfit : ∀ piece ∈ front, piece.Fits)
    (p : Place) (gap : List Char) (leading : List Comment) :
    ∃ init gap' leading', (∀ t ∈ init, t.isEof = false) ∧ ∀ rest,
      ofPieces p gap leading (front ++ rest) =
        init ++ ofPieces (p.advance (front.flatMap Piece.text)) gap' leading' rest := by
  induction front generalizing p gap leading with
  | nil => exact ⟨[], gap, leading, List.forall_mem_nil _, fun rest => rfl⟩
  | cons piece front ih =>
    obtain ⟨hpiece, hfront⟩ := List.forall_mem_cons.mp hfit
    simp only [List.cons_append, List.flatMap_cons, Place.advance_append]
    rcases piece.cases_isToken with ⟨kind, hkind⟩ | hpassed
    · obtain ⟨init, gap', leading', hinit, hrest⟩ := ih hfront (p.advance piece.text) [] []
      refine ⟨piece.tokenAt p gap leading kind :: init, gap', leading', ?_, fun rest => ?_⟩
      · exact List.forall_mem_cons.mpr ⟨beq_false_of_ne (hpiece.token kind hkind), hinit⟩
      · rw [ofPieces_of_token _ _ _ _ hkind, hrest, List.cons_append]
    · obtain ⟨init, gap', leading', hinit, hrest⟩ := ih hfront (p.advance piece.text)
        (gap ++ piece.text) (leading ++ piece.commentAt p)
      refine ⟨init, gap', leading', hinit, fun rest => ?_⟩
      rw [ofPieces_of_not_token _ _ _ _ hpassed, hrest]

theorem ofPieces_blank (p : Place) (gap : List Char) (leading : List Comment) (ws : List Char)
    (ps : List Piece) :
    ofPieces p gap leading (⟨.blank, ws⟩ :: ps) =
      ofPieces (p.advance ws) (gap ++ ws) leading ps := by
  rw [ofPieces]

theorem ofPieces_blanks_append (p : Place) (gap : List Char) (leading : List Comment)
    (ws : List Char) (ps : List Piece) :
    ofPieces p gap leading (blanks ws ++ ps) = ofPieces (p.advance ws) (gap ++ ws) leading ps := by
  unfold blanks
  split
  · rename_i hws
    rw [hws, List.append_nil]
    rfl
  · exact ofPieces_blank p gap leading ws ps

/-- A line break leads to the first column. -/
theorem advance_newline (base : Nat) (cs : List Char) :
    (Place.start base).advance (cs ++ ['\n']) =
      (Place.start base).shift (String.utf8Len cs + 1) (cs.count '\n' + 1) := by
  rw [Place.advance_append]
  change Place.mk (((Place.start base).advance cs).offset + 1)
    (((Place.start base).advance cs).line + 1) 0 = _
  rw [Place.offset_advance, Place.line_advance]
  rfl

/-- **After a line break the walk over pieces starts anew**, further on by what is before the break.
Only what was passed since the last token is kept. -/
theorem ofPieces_newline {base : Nat} {p : Place} {cs ws : List Char}
    (hp : p.advance ws = (Place.start base).advance cs) (gap : List Char) (leading : List Comment)
    (ws' : List Char) (ps : List Piece) :
    ofPieces p gap leading (⟨.blank, ws ++ '\n' :: ws'⟩ :: ps) =
      ((ofPieces (Place.start base) [] [] (blanks ws' ++ ps)).map
          (shift (String.utf8Len cs + 1) (cs.count '\n' + 1))).modifyHead
        (after (String.ofList (gap ++ ws) ++ "\n") leading) := by
  have hplace : p.advance (ws ++ '\n' :: ws') =
      ((Place.start base).advance ws').shift (String.utf8Len cs + 1) (cs.count '\n' + 1) := calc
    p.advance (ws ++ '\n' :: ws')
      = ((p.advance ws).advance ['\n']).advance ws' := by
        rw [List.append_cons, Place.advance_append, Place.advance_append]
    _ = ((Place.start base).advance (cs ++ ['\n'])).advance ws' := by
        rw [hp, Place.advance_append _ cs]
    _ = ((Place.start base).advance ws').shift (String.utf8Len cs + 1) (cs.count '\n' + 1) := by
        rw [advance_newline, Place.advance_shift]
  have hgap : gap ++ (ws ++ '\n' :: ws') = (gap ++ ws ++ ['\n']) ++ ws' := by
    simp only [List.append_assoc, List.cons_append, List.nil_append]
  have hbreak : String.ofList (gap ++ ws) ++ "\n" = String.ofList (gap ++ ws ++ ['\n']) :=
    String.ofList_append.symm
  have hmoved := ofPieces_shift (String.utf8Len cs + 1) (cs.count '\n' + 1)
    ((Place.start base).advance ws') ws' [] ps
  have hpassed := ofPieces_append
    (((Place.start base).advance ws').shift (String.utf8Len cs + 1) (cs.count '\n' + 1))
    (gap ++ ws ++ ['\n']) ws' leading [] ps
  rw [List.append_nil] at hpassed
  rw [ofPieces_blank, hplace, hgap, hpassed, ofPieces_blanks_append, hbreak, List.nil_append]
  exact congrArg _ hmoved

/-- A suffix of the text after a line break stands further on by what is before it. -/
theorem take_append_newline (cs : List Char) {ds rest : List Char} (h : rest.length ≤ ds.length) :
    (cs ++ '\n' :: ds).take ((cs ++ '\n' :: ds).length - rest.length) =
      (cs ++ ['\n']) ++ ds.take (ds.length - rest.length) := by
  have hlength : (cs ++ '\n' :: ds).length - rest.length =
      (cs ++ ['\n']).length + (ds.length - rest.length) := by
    simp only [List.length_append, List.length_cons, List.length_nil]
    omega
  rw [hlength, List.append_cons cs '\n' ds, List.take_length_add_append]

theorem placeOf_append_newline (base : Nat) (cs : List Char) {ds rest : List Char}
    (h : rest.length ≤ ds.length) :
    placeOf base (cs ++ '\n' :: ds) rest =
      (placeOf base ds rest).shift (String.utf8Len cs + 1) (cs.count '\n' + 1) := by
  rw [placeOf, take_append_newline cs h, Place.advance_append, advance_newline, Place.advance_shift]
  rfl

section Faults

variable {ds : List Char} {halt : Halt}

theorem Scanner.Passes.length_rest_le {s : Scanner} {as : List Char}
    (h : (Scanner.start ds).Passes as s) : s.rest.length ≤ ds.length := by
  have hds : ds = as ++ s.rest := h.rest
  rw [hds, List.length_append]
  omega

/-- A fault of the text after a line break is the same fault further on. -/
theorem Fault.locate_append_newline (base : Nat) (cs : List Char) (h : halt.From (.start ds)) :
    halt.fault.locate base (cs ++ '\n' :: ds) =
      (halt.fault.locate base ds).shift (String.utf8Len cs + 1) (cs.count '\n' + 1) := by
  cases halt with
  | unclosed left =>
    obtain ⟨⟨as, has⟩, bs, hbs⟩ := h
    simp only [Halt.fault, Unfinished.toOpen, Fault.locate,
      placeOf_append_newline base cs has.length_rest_le,
      placeOf_append_newline base cs hbs.length_rest_le]
    rfl
  | stray c start stop =>
    obtain ⟨⟨as, has⟩, hstop⟩ := h
    have hrest : (c :: stop.rest).length ≤ ds.length := by
      rw [← List.singleton_append, ← hstop.rest]
      exact has.length_rest_le
    simp only [Halt.fault, Fault.locate, placeOf_append_newline base cs hrest, Place.step_shift]
    rfl

/-- It was found behind as much of that text, and behind all that is before it. -/
theorem Fault.before_append_newline (cs : List Char) (h : halt.From (.start ds)) :
    halt.fault.before (cs ++ '\n' :: ds) = cs ++ '\n' :: halt.fault.before ds := by
  have hstop : ∃ as, (Scanner.start ds).Passes as halt.stop := by
    cases halt with
    | unclosed left => exact h.2
    | stray c start stop =>
      obtain ⟨⟨as, has⟩, hstop⟩ := h
      exact ⟨_, has.trans hstop⟩
  obtain ⟨as, has⟩ := hstop
  have htake := take_append_newline cs has.length_rest_le
  rw [List.append_assoc] at htake
  cases halt <;> exact htake

/-- The ends of its span are in the text. -/
theorem Fault.span_locate_le (h : halt.From (.start ds)) (base : UInt32) :
    (halt.fault.locate base.toNat ds).span.lo ≤ base.toNat + String.utf8Len ds ∧
      (halt.fault.locate base.toNat ds).span.hi ≤ base.toNat + String.utf8Len ds := by
  have hle : ∀ {s : Scanner} {as : List Char}, (Scanner.start ds).Passes as s →
      (placeOf base.toNat ds s.rest).offset ≤ base.toNat + String.utf8Len ds := by
    intro s as has
    have hds : ds = as ++ s.rest := has.rest
    have hlen := String.utf8Len_append as s.rest
    rw [placeOf, has.take_eq, Place.offset_advance]
    rw [← hds] at hlen
    show base.toNat + _ ≤ _
    omega
  cases halt with
  | unclosed left =>
    obtain ⟨⟨as, has⟩, bs, hbs⟩ := h
    exact ⟨hle has, hle hbs⟩
  | stray c start stop =>
    obtain ⟨⟨as, has⟩, hstop⟩ := h
    have hrest : start.rest = c :: stop.rest := hstop.rest
    have hafter : ((placeOf base.toNat ds (c :: stop.rest)).step c).offset =
        (placeOf base.toNat ds stop.rest).offset := by
      rw [← hrest, has.placeOf_eq, (has.trans hstop).placeOf_eq, hstop.placeAt]
      rfl
    refine ⟨?_, ?_⟩
    · show (placeOf base.toNat ds (c :: stop.rest)).offset ≤ _
      rw [← hrest]
      exact hle has
    · exact hafter.trans_le (hle (has.trans hstop))

end Faults

end Token

/-! ### Lines and columns that fit -/

namespace Place

theorem fits_iff {p : Place} : p.fits = true ↔ p.line < UInt32.size ∧ p.column < UInt32.size := by
  simp [fits]

theorem fits_of_fitsAll {p : Place} {cs : List Char} (h : p.fitsAll cs = true) : p.fits = true := by
  cases cs with
  | nil => exact h
  | cons c r => exact (Bool.and_eq_true_iff.mp h).1

theorem fitsAll_append (p : Place) (cs ds : List Char) :
    p.fitsAll (cs ++ ds) = true ↔ p.fitsAll cs = true ∧ (p.advance cs).fitsAll ds = true := by
  induction cs generalizing p with
  | nil => exact ⟨fun h => ⟨fits_of_fitsAll h, h⟩, And.right⟩
  | cons c cs ih =>
    simp only [List.cons_append, fitsAll, Bool.and_eq_true, ih, advance_cons, and_assoc]

/-- On other lines the columns are the same, so only the number of lines matters. -/
theorem fitsAll_shift (p : Place) (n m : Nat) (cs : List Char) :
    (p.shift n m).fitsAll cs = true ↔
      p.fitsAll cs = true ∧ p.line + m + cs.count '\n' < UInt32.size := by
  induction cs generalizing p with
  | nil =>
    simp only [fitsAll, fits_iff, shift, List.count_nil]
    omega
  | cons c cs ih =>
    have hline : (p.step c).line + cs.count '\n' = p.line + (c :: cs).count '\n' := by
      have hcount := (line_advance p (c :: cs)).symm
      rw [advance_cons, line_advance] at hcount
      omega
    rw [fitsAll, fitsAll, Bool.and_eq_true, Bool.and_eq_true, step_shift, ih, fits_iff, fits_iff]
    show (p.line + m < _ ∧ p.column < _) ∧ _ ↔ _
    constructor
    · rintro ⟨⟨hhere, hcolumn⟩, hrest, hlines⟩
      exact ⟨⟨⟨by omega, hcolumn⟩, hrest⟩, by omega⟩
    · rintro ⟨⟨⟨-, hcolumn⟩, hrest⟩, hlines⟩
      exact ⟨⟨by omega, hcolumn⟩, hrest, by omega⟩

/-- **Two texts with a line break between them fit if each of them fits and there are not too many
lines.** -/
theorem fitsAll_append_newline (cs ds : List Char) :
    (start 0).fitsAll (cs ++ '\n' :: ds) = true ↔
      (start 0).fitsAll cs = true ∧ (start 0).fitsAll ds = true ∧
        cs.count '\n' + ds.count '\n' + 2 < UInt32.size := by
  have hbreak : ((start 0).advance cs).fitsAll ['\n'] = true ↔
      ((start 0).advance cs).fits = true ∧ 1 + cs.count '\n' + 1 < UInt32.size := by
    have hline : ((start 0).advance cs).line = 1 + cs.count '\n' := line_advance _ _
    simp only [fitsAll, fits_iff, step, Bool.and_eq_true, hline, if_true]
    have hpos : 0 < UInt32.size := by decide
    omega
  have hcs : (start 0).fitsAll cs = true → ((start 0).advance cs).fits = true := by
    intro h
    rw [← List.append_nil cs, fitsAll_append] at h
    exact h.2
  rw [List.append_cons, fitsAll_append, fitsAll_append, Token.advance_newline, fitsAll_shift, hbreak]
  show (_ ∧ _) ∧ _ ∧ 1 + (cs.count '\n' + 1) + ds.count '\n' < UInt32.size ↔ _
  constructor
  · rintro ⟨⟨hfirst, -, -⟩, hsecond, hlines⟩
    exact ⟨hfirst, hsecond, by omega⟩
  · rintro ⟨hfirst, hsecond, hlines⟩
    exact ⟨⟨hfirst, hcs hfirst, by omega⟩, hsecond, by omega⟩

end Place

namespace Token

/-! ### What the lexer reads before and after a line break -/

/-- The tokens of a text before a line break, up to its end, and what its end carries over. -/
theorem exists_ofPieces_append_newline {text : List Char} {ps : List Piece}
    (h : pieces true text = .ok ps) (base : Nat) :
    ∃ init last, ofPieces (Place.start base) [] [] ps = init ++ [last] ∧ last.isEof = true ∧
      (∀ t ∈ init, t.isEof = false) ∧
      ∀ next,
        (∀ qs, pieces true next = .ok qs → ∃ rs, pieces true (text ++ '\n' :: next) = .ok rs ∧
          ofPieces (Place.start base) [] [] rs = init ++
            ((ofPieces (Place.start base) [] [] qs).map
              (shift (String.utf8Len text + 1) (text.count '\n' + 1))).modifyHead
                (after (last.gap ++ "\n") last.leading)) ∧
        (∀ fault, pieces true next = .error fault →
          pieces true (text ++ '\n' :: next) = .error fault) := by
  -- The blanks at the end of the text and the break are one gap, with the blanks of what follows.
  obtain ⟨front, ws, rfl, hws, hboth⟩ := pieces_append_newline h
  have hfit : ∀ piece ∈ front, piece.Fits :=
    fun piece hpiece => fits_of_mem_pieces h piece (List.mem_append_left _ hpiece)
  obtain ⟨init, gap, leading, hinit, hwalk⟩ :=
    exists_ofPieces_append hfit (Place.start base) [] []
  have hspell : front.flatMap Piece.text ++ ws = text := by
    rw [← spell_pieces h, List.flatMap_append, flatMap_text_blanks]
  have hplace : ((Place.start base).advance (front.flatMap Piece.text)).advance ws =
      (Place.start base).advance text := by
    rw [← hspell, Place.advance_append]
  -- The walk ends with the gap and the comments that it has collected since its last token.
  have hlast : ofPieces (Place.start base) [] [] (front ++ blanks ws) =
      init ++ ofPieces ((Place.start base).advance text) (gap ++ ws) leading [] := by
    have hend := ofPieces_blanks_append
      ((Place.start base).advance (front.flatMap Piece.text)) gap leading ws []
    rw [List.append_nil] at hend
    rw [hwalk, hend, hplace]
  refine ⟨init, _, hlast, rfl, hinit, fun next => ?_⟩
  rw [hboth, pieces_eq_blanks_append next]
  -- What follows is cut on its own, and either has pieces or fails as a whole.
  cases pieces true (next.dropWhile isBlank) with
  | ok qs =>
    refine ⟨?_, nofun⟩
    rintro _ ⟨⟩
    exact ⟨_, rfl, by rw [hwalk, ofPieces_newline hplace]⟩
  | error fault => exact ⟨nofun, fun fault' hfault => hfault⟩

theorem map_word_modifyHead (gap : String) (leading : List Comment) (ts : List Token) :
    (ts.modifyHead (after gap leading)).map word =
      (ts.map word).modifyHead (after gap (leading.map Comment.word)) := by
  cases ts with
  | nil => rfl
  | cons t ts => simp [after, word]

/-- **A line break keeps texts apart.** If a text has tokens, what is read from it with a line break
and another text after it are its tokens but the last, and then what is read from the other text,
moved to where that one stands. The first token of the other text takes over the comments that the
end of the first text carried. Both texts together have to end below the largest word, and so has the
number of their lines. -/
theorem lex_append_newline {text : String} {base : UInt32} {ts : List Token}
    (h : lex text base = .ok ts) :
    ∃ init last, ts = init ++ [last] ∧ last.isEof = true ∧ (∀ t ∈ init, t.isEof = false) ∧
      ∀ next : String, base.toNat + (text ++ "\n" ++ next).utf8ByteSize < UInt32.size →
        (text ++ "\n" ++ next).toList.count '\n' + 1 < UInt32.size →
        (∀ us, lex next base = .ok us → lex (text ++ "\n" ++ next) base =
          .ok (init ++
            (us.map (shift (text.utf8ByteSize + 1) (text.toList.count '\n' + 1))).modifyHead
              (after (last.gap ++ "\n") last.leading))) ∧
        (∀ e, lex next base = .error (.error e) → lex (text ++ "\n" ++ next) base =
          .error (.error (e.shift (text.utf8ByteSize + 1) (text.toList.count '\n' + 1)))) ∧
        (lex next base = .error .overflow →
          lex (text ++ "\n" ++ next) base = .error .overflow) := by
  obtain ⟨ps, hps, hfits, rfl⟩ := exists_pieces_of_lex h
  obtain ⟨init, last, hsplit, hlast, hinit, hnext⟩ :=
    exists_ofPieces_append_newline hps base.toNat
  refine ⟨init.map word, last.word, ?_, hlast, ?_, fun next hsize hlines => ?_⟩
  · rw [hsplit, List.map_append]
    rfl
  · intro t ht
    obtain ⟨u, hu, rfl⟩ := List.mem_map.mp ht
    exact hinit u hu
  have hsource : (text ++ "\n" ++ next).toList = text.toList ++ '\n' :: next.toList := by
    simp
  have hcount : (text ++ "\n" ++ next).toList.count '\n' =
      text.toList.count '\n' + (next.toList.count '\n' + 1) := by
    rw [hsource, List.count_append, List.count_cons_self]
  have hbytes : (text ++ "\n" ++ next).utf8ByteSize =
      text.utf8ByteSize + 1 + next.utf8ByteSize := by
    rw [String.utf8ByteSize_append, String.utf8ByteSize_append]
    rfl
  -- What is read of the second text fits behind the first one if it fits alone.
  have hboth : ∀ ds, ds <+: next.toList →
      ((Place.start 0).fitsAll (text.toList ++ '\n' :: ds) = true ↔
        (Place.start 0).fitsAll ds = true) := by
    intro ds hds
    have hle := hds.sublist.count_le '\n'
    rw [Place.fitsAll_append_newline]
    exact ⟨fun h => h.2.1, fun h => ⟨hfits, h, by omega⟩⟩
  rw [← String.utf8Len_toList, lex_eq next, lex_eq (text ++ "\n" ++ next), hsource]
  cases hpieces : pieces true next.toList with
  | ok qs =>
    obtain ⟨rs, hrs, hwalk⟩ := (hnext next.toList).1 qs hpieces
    rw [hrs]
    dsimp only
    by_cases hfit : (Place.start 0).fitsAll next.toList = true
    · rw [if_pos hfit, if_pos ((hboth _ List.prefix_rfl).mpr hfit)]
      refine ⟨?_, nofun, nofun⟩
      rintro us ⟨⟩
      have htokenize : tokenize next base.toNat = .ok (ofPieces (Place.start base.toNat) [] [] qs) := by
        unfold tokenize
        rw [hpieces]
      rw [hwalk, List.map_append, map_word_modifyHead, map_word_shift htokenize]
      · rfl
      · rw [String.utf8Len_toList]
        omega
    · rw [if_neg hfit, if_neg (mt (hboth _ List.prefix_rfl).mp hfit)]
      exact ⟨nofun, nofun, fun _ => rfl⟩
  | error fault =>
    rw [(hnext next.toList).2 fault hpieces]
    obtain ⟨halt, -, hfrom, rfl⟩ := exists_halt_of_pieces hpieces base
    have hbefore : halt.fault.before next.toList <+: next.toList := by
      cases halt.fault <;> exact List.take_prefix _ _
    dsimp only
    rw [Fault.before_append_newline _ hfrom, Fault.locate_append_newline _ _ hfrom]
    by_cases hfit : (Place.start 0).fitsAll (halt.fault.before next.toList) = true
    · rw [if_pos hfit, if_pos ((hboth _ hbefore).mpr hfit)]
      refine ⟨nofun, ?_, nofun⟩
      rintro e ⟨⟩
      obtain ⟨hlo, hhi⟩ := Fault.span_locate_le hfrom base
      rw [String.utf8Len_toList] at hlo hhi
      rw [Error.word_shift]
      · rw [String.utf8Len_toList]
        omega
      · rw [String.utf8Len_toList]
        omega
    · rw [if_neg hfit, if_neg (mt (hboth _ hbefore).mp hfit)]
      exact ⟨nofun, nofun, fun _ => rfl⟩

/-- A comment and a blank at the end. -/
def commentedEnd : String :=
  "a /* x */ "

/-- The second text is a directive and a word, or a literal that is left open. -/
theorem lex_append_newline_commentedEnd :
    lex commentedEnd 1 = .ok [⟨.ident, "a", ⟨1, 2⟩, 1, 0, [], ""⟩,
        ⟨.eof, "", ⟨11, 11⟩, 1, 10, [⟨"/* x */", ⟨3, 10⟩, 2⟩], " /* x */ "⟩] ∧
      lex (commentedEnd ++ "\n" ++ " #r\nb") 1 = .ok [⟨.ident, "a", ⟨1, 2⟩, 1, 0, [], ""⟩,
        ⟨.ident, "b", ⟨16, 17⟩, 3, 0, [⟨"/* x */", ⟨3, 10⟩, 2⟩, ⟨"#r", ⟨13, 15⟩, 1⟩],
          " /* x */ \n #r\n"⟩,
        ⟨.eof, "", ⟨17, 17⟩, 3, 1, [], ""⟩] ∧
      lex (commentedEnd ++ "\n" ++ "'b") 1 =
        .error (.error (.unterminated .characterLiteral ⟨12, 14⟩ 2)) := by
  have hfirst : lex commentedEnd 1 = .ok ([⟨.ident, "a", ⟨1, 2⟩, 1, 0, [], ""⟩] ++
      [⟨.eof, "", ⟨11, 11⟩, 1, 10, [⟨"/* x */", ⟨3, 10⟩, 2⟩], " /* x */ "⟩]) := by
    decide +kernel
  obtain ⟨init, last, hsplit, -, -, hnext⟩ := lex_append_newline hfirst
  obtain ⟨rfl, hlast⟩ := List.append_inj' hsplit rfl
  obtain rfl := List.singleton_inj.mp hlast
  refine ⟨hfirst, ?_, ?_⟩
  · rw [(hnext " #r\nb" (by decide) (by decide)).1
      [⟨.ident, "b", ⟨5, 6⟩, 2, 0, [⟨"#r", ⟨2, 4⟩, 1⟩], " #r\n"⟩,
      ⟨.eof, "", ⟨6, 6⟩, 2, 1, [], ""⟩] (by decide +kernel)]
    decide +kernel
  · rw [(hnext "'b" (by decide) (by decide)).2.1
      (.unterminated .characterLiteral ⟨1, 3⟩ 1) (by decide +kernel)]
    decide +kernel

/-- Without a limit the law fails: here the line break is the last byte below the largest word, and
the second text starts at zero. -/
theorem lex_append_newline_wrapped :
    lex "a" 4294967294 = .ok [⟨.ident, "a", ⟨4294967294, 4294967295⟩, 1, 0, [], ""⟩,
        ⟨.eof, "", ⟨4294967295, 4294967295⟩, 1, 1, [], ""⟩] ∧
      lex "b" 4294967294 = .ok [⟨.ident, "b", ⟨4294967294, 4294967295⟩, 1, 0, [], ""⟩,
        ⟨.eof, "", ⟨4294967295, 4294967295⟩, 1, 1, [], ""⟩] ∧
      lex ("a" ++ "\n" ++ "b") 4294967294 ≠
        .ok ([⟨.ident, "a", ⟨4294967294, 4294967295⟩, 1, 0, [], ""⟩] ++
          ([⟨.ident, "b", ⟨4294967294, 4294967295⟩, 1, 0, [], ""⟩,
            ⟨.eof, "", ⟨4294967295, 4294967295⟩, 1, 1, [], ""⟩].map (shift 2 1)).modifyHead
              (after ("" ++ "\n") [])) := by
  decide +kernel

end Token

end ClassSugar
