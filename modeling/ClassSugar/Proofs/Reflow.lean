import ClassSugar.Proofs.LiteralLocality
import ClassSugar.Proofs.TrimmedLines

/-!
# Code laid out anew, character by character

`reindent` takes code apart into lines. Whoever reads what it gives reads the lines joined again,
and that text can be made of the code by one walk over its characters (`reflow`), which knows no
lines: it passes over blanks in the first columns of a line and over blanks before a line break.

* `intercalate_reindent` — the walk gives the lines of `reindent`, joined.
* `reflow_append_of_unmoved`, `unmoved_of_reflow_append` — a part of the code that ends with no
  blank comes out as it was if nothing at its line breaks is lost (`Unmoved`), and only then.
* `lineWithin_reflow` — what can be seen on the first line could be seen there before.
-/

namespace ClassSugar

open ClassSugar.Text

/-- Whether a text starts with the end of a line. -/
def atLineEnd (cs : List Char) : Bool :=
  cs.head?.all (· == '\n')

/-- Code without blanks in the first columns of its lines, without blanks at the ends of its lines,
and without a line break at its end. On the line where the walk starts, `n` columns are left to
pass over. -/
def reflow (column : Nat) : Nat → List Char → List Char
  | _, [] => []
  | n, c :: r =>
    if c = '\n' then
      if r = [] then [] else '\n' :: reflow column column r
    else if n ≠ 0 ∧ c = ' ' then reflow column (n - 1) r
    else if n ≠ 0 ∧ c = '\t' then reflow column (n - Place.tabWidth) r
    else if isBlank c ∧ atLineEnd (reflow column 0 r) then reflow column 0 r
    else c :: reflow column 0 r

section Steps

variable {column n : Nat} {c : Char} {r : List Char}

theorem atLineEnd_cons : atLineEnd (c :: r) = true ↔ c = '\n' := by
  simp [atLineEnd]

theorem ne_newline_of_solid (hc : isBlank c = false) : c ≠ '\n' := by
  rintro rfl
  exact absurd hc (by decide)

@[simp] theorem reflow_nil : reflow column n [] = [] := by
  rw [reflow]

theorem reflow_newline (hr : r ≠ []) :
    reflow column n ('\n' :: r) = '\n' :: reflow column column r := by
  rw [reflow, if_pos rfl, if_neg hr]

/-- Blanks are passed over in the columns that are left. -/
def Passes (n : Nat) (c : Char) : Prop :=
  n ≠ 0 ∧ (c = ' ' ∨ c = '\t')

instance (n : Nat) (c : Char) : Decidable (Passes n c) :=
  inferInstanceAs (Decidable (_ ∧ _))

/-- A blank that is passed over leaves fewer columns. -/
theorem exists_of_passes (column : Nat) (h : Passes n c) :
    ∃ m, ∀ r, stripColumns n (c :: r) = stripColumns m r ∧
      reflow column n (c :: r) = reflow column m r := by
  obtain ⟨hn, rfl | rfl⟩ := h
  · refine ⟨n - 1, fun r => ⟨?_, ?_⟩⟩
    · rw [stripColumns, if_neg hn, if_pos rfl]
    · rw [reflow, if_neg (by decide), if_pos ⟨hn, rfl⟩]
  · refine ⟨n - Place.tabWidth, fun r => ⟨?_, ?_⟩⟩
    · rw [stripColumns, if_neg hn, if_neg (by decide), if_pos rfl]
    · rw [reflow, if_neg (by decide), if_neg (fun h => absurd h.2 (by decide)), if_pos ⟨hn, rfl⟩]

theorem reflow_of_not_passes (hc : c ≠ '\n') (h : ¬Passes n c) :
    reflow column n (c :: r) =
      if isBlank c ∧ atLineEnd (reflow column 0 r) then reflow column 0 r
      else c :: reflow column 0 r := by
  rw [reflow, if_neg hc, if_neg (fun hs => h ⟨hs.1, .inl hs.2⟩),
    if_neg (fun hs => h ⟨hs.1, .inr hs.2⟩)]

theorem not_passes_of_solid (hc : isBlank c = false) : ¬Passes n c := by
  rintro ⟨-, rfl | rfl⟩
  · exact absurd hc (by decide)
  · exact absurd hc (by decide)

theorem not_passes_zero : ¬Passes 0 c :=
  fun h => h.1 rfl

/-- What is no blank stays. -/
theorem reflow_of_solid (hc : isBlank c = false) :
    reflow column n (c :: r) = c :: reflow column 0 r := by
  rw [reflow_of_not_passes (ne_newline_of_solid hc) (not_passes_of_solid hc),
    if_neg (fun h => Bool.false_ne_true (hc.symm.trans h.1))]

/-- A character is passed over, or dropped before the end of a line, or kept. -/
theorem cases_reflow (column n : Nat) (r : List Char) (hc : c ≠ '\n') :
    (Passes n c ∧ ∃ m, reflow column n (c :: r) = reflow column m r) ∨
      (¬Passes n c ∧ isBlank c = true ∧ atLineEnd (reflow column 0 r) = true ∧
        reflow column n (c :: r) = reflow column 0 r) ∨
      (¬Passes n c ∧ ¬(isBlank c = true ∧ atLineEnd (reflow column 0 r) = true) ∧
        reflow column n (c :: r) = c :: reflow column 0 r) := by
  by_cases hpass : Passes n c
  · obtain ⟨m, hm⟩ := exists_of_passes column hpass
    exact .inl ⟨hpass, m, (hm r).2⟩
  · rw [reflow_of_not_passes hc hpass]
    by_cases hend : isBlank c = true ∧ atLineEnd (reflow column 0 r) = true
    · exact .inr (.inl ⟨hpass, hend.1, hend.2, if_pos hend⟩)
    · exact .inr (.inr ⟨hpass, hend, if_neg hend⟩)

theorem reflow_of_atLineEnd {rest : List Char} (h : atLineEnd rest = true) :
    reflow column n rest = reflow column 0 rest := by
  cases rest with
  | nil => rw [reflow_nil, reflow_nil]
  | cons c r =>
    obtain rfl := atLineEnd_cons.mp h
    rw [reflow, reflow, if_pos rfl, if_pos rfl]

theorem atLineEnd_reflow (column n : Nat) {rest : List Char} (h : atLineEnd rest = true) :
    atLineEnd (reflow column n rest) = true := by
  cases rest with
  | nil => rw [reflow_nil]; rfl
  | cons c r =>
    obtain rfl := atLineEnd_cons.mp h
    rw [reflow, if_pos rfl]
    split <;> rfl

end Steps

/-! ### Line by line -/

section Lines

variable {column n : Nat}

theorem stripColumns_of_not_passes {c : Char} {r : List Char} (h : ¬Passes n c) :
    stripColumns n (c :: r) = c :: r := by
  by_cases hn : n = 0
  · rw [hn, stripColumns_zero]
  · rw [stripColumns, if_neg hn, if_neg (fun hc => h ⟨hn, .inl hc⟩),
      if_neg (fun hc => h ⟨hn, .inr hc⟩)]

/-- **One line of the walk**: blanks in its first columns and at its end are left out. -/
theorem reflow_append_line {line rest : List Char} (hline : '\n' ∉ line)
    (hrest : atLineEnd rest = true) :
    reflow column n (line ++ rest) = trimEnd (stripColumns n line) ++ reflow column 0 rest := by
  induction line generalizing n with
  | nil => exact reflow_of_atLineEnd hrest
  | cons c r ih =>
    obtain ⟨hc, hr⟩ := not_or.mp (mt List.mem_cons.mpr hline)
    by_cases hpass : Passes n c
    · obtain ⟨m, hm⟩ := exists_of_passes column hpass
      rw [(hm r).1, List.cons_append, (hm _).2, ih hr]
    rw [stripColumns_of_not_passes hpass, List.cons_append,
      reflow_of_not_passes (Ne.symm hc) hpass, ih hr, stripColumns_zero]
    cases htrim : trimEnd r with
    | nil =>
      -- Nothing is left of the line behind the character, so it is the last or a blank to drop.
      have hend := atLineEnd_reflow column 0 hrest
      cases hblank : isBlank c with
      | true =>
        have hall : trimEnd (c :: r) = [] := trimEnd_eq_nil_iff.mpr
          (List.forall_mem_cons.mpr ⟨hblank, trimEnd_eq_nil_iff.mp htrim⟩)
        rw [hall, List.nil_append, if_pos ⟨rfl, hend⟩]
      | false =>
        rw [trimEnd_cons ⟨c, List.mem_cons_self, hblank⟩, htrim,
          if_neg (fun h => Bool.false_ne_true h.1)]
        rfl
    | cons d s =>
      have hd : d ≠ '\n' := by
        rintro rfl
        exact (tidy_trimEnd hr).unbroken (htrim ▸ List.mem_cons_self)
      have hsolid : ∃ e ∈ c :: r, isBlank e = false := by
        by_contra hno
        push Not at hno
        have hnil : trimEnd r = [] := trimEnd_eq_nil_iff.mpr fun e he =>
          Bool.not_eq_false _ ▸ hno e (List.mem_cons_of_mem c he)
        rw [hnil] at htrim
        cases htrim
      rw [trimEnd_cons hsolid, htrim, List.cons_append,
        if_neg (fun h => hd (atLineEnd_cons.mp h.2))]
      rfl

theorem reflow_line {line : List Char} (hline : '\n' ∉ line) :
    reflow column n line = trimEnd (stripColumns n line) := by
  have hall : reflow column n (line ++ []) = _ := reflow_append_line hline rfl
  rwa [reflow_nil, List.append_nil, List.append_nil] at hall

theorem stripColumns_concat_return (line : List Char) :
    stripColumns n (line ++ ['\r']) = stripColumns n line ++ ['\r'] := by
  fun_induction stripColumns n line with
  | case1 => simp [stripColumns]
  | case2 c r => rw [stripColumns_zero]
  | case3 n r hn ih => rw [List.cons_append, stripColumns, if_neg hn, if_pos rfl, ih]
  | case4 n r hn hspace ih =>
    rw [List.cons_append, stripColumns, if_neg hn, if_neg hspace, if_pos rfl, ih]
  | case5 n c r hn hspace htab =>
    rw [List.cons_append, stripColumns, if_neg hn, if_neg hspace, if_neg htab]

/-- The lines behind a line break, each as the walk leaves it. -/
theorem newline_reflow_eq {r : List Char} (hr : r ≠ []) :
    '\n' :: reflow column column r =
      (lines r).flatMap fun line => '\n' :: trimEnd (stripColumns column line) := by
  induction hlength : r.length using Nat.strong_induction_on generalizing r with
  | _ _ ih =>
    obtain ⟨hunbroken, hline | ⟨more, hline⟩⟩ := cases_first_line r
    · rw [← hline] at hunbroken
      rw [lines_of_unbroken hunbroken hr, reflow_line hunbroken]
      simp
    · generalize r.takeWhile (· != '\n') = line at hline hunbroken
      subst hline
      obtain ⟨read, hlines, hread⟩ := exists_lines_append_break hunbroken more
      -- The walk leaves the carriage return to the trimming, which takes it for a blank.
      have hsame : trimEnd (stripColumns column read) = trimEnd (stripColumns column line) := by
        refine trimEnd_of_return (hread.imp (congrArg _) ?_)
        rintro rfl
        exact stripColumns_concat_return read
      rw [hlines, List.flatMap_cons, hsame, reflow_append_line hunbroken rfl, List.cons_append]
      by_cases hmore : more = []
      · rw [hmore, reflow, if_pos rfl, if_pos rfl]
        rfl
      · rw [reflow_newline hmore, ih more.length (by rw [← hlength]; simp; omega) hmore rfl]

theorem intercalate_cons (first : List Char) (rest : List (List Char)) :
    ['\n'].intercalate (first :: rest) = first ++ rest.flatMap ('\n' :: ·) := by
  induction rest generalizing first with
  | nil => simp [List.intercalate]
  | cons line rest ih => rw [List.intercalate_cons_cons, ih, List.flatMap_cons]; simp

/-- The carriage return at the end of a line is not seen. -/
theorem trim_of_return {line read : List Char} (h : line = read ∨ line = read ++ ['\r']) :
    trim read = trim line := by
  rcases h with rfl | rfl
  · rfl
  · have hreturn : ['\r'].dropWhile isBlank = [] := rfl
    rw [trim, trim, trimStart, trimStart, List.dropWhile_append, hreturn]
    split
    · rename_i hempty
      rw [List.isEmpty_iff.mp hempty]
    · exact (trimEnd_append_blanks _ (List.forall_mem_singleton.mpr rfl)).symm

theorem dropWhile_of_unbroken {line : List Char} (h : '\n' ∉ line) :
    line.dropWhile (fun c => isBlank c && c != '\n') = trimStart line := by
  unfold trimStart
  induction line with
  | nil => rfl
  | cons c r ih =>
    obtain ⟨hc, hr⟩ := not_or.mp (mt List.mem_cons.mpr h)
    have hsame : (isBlank c && c != '\n') = isBlank c := by simp [Ne.symm hc]
    rw [List.dropWhile_cons, List.dropWhile_cons, hsame, ih hr]

/-- **The walk gives the lines that code is laid out in, joined again.** It starts behind the blanks
on the first line. -/
theorem intercalate_reindent (column : Nat) (text : List Char) :
    ['\n'].intercalate (reindent column text) =
      reflow column 0 (text.dropWhile fun c => isBlank c && c != '\n') := by
  have htrim : ∀ {line rest : List Char}, '\n' ∉ line → atLineEnd rest = true →
      reflow column 0 (trimStart line ++ rest) = trim line ++ reflow column 0 rest := by
    intro line rest hline hrest
    have hstart : '\n' ∉ trimStart line := fun hmem => hline ((List.dropWhile_suffix _).subset hmem)
    rw [reflow_append_line hstart hrest, stripColumns_zero, trim]
  obtain ⟨hunbroken, hline | ⟨more, hline⟩⟩ := cases_first_line text
  · -- The text is one line, or empty.
    rw [← hline] at hunbroken
    have hall : reflow column 0 (trimStart text ++ []) = _ := htrim hunbroken rfl
    rw [List.append_nil, reflow_nil, List.append_nil] at hall
    rw [dropWhile_of_unbroken hunbroken, hall, reindent]
    by_cases hnil : text = []
    · rw [hnil]
      rfl
    · rw [lines_of_unbroken hunbroken hnil, intercalate_cons]
      simp
  · generalize text.takeWhile (· != '\n') = line at hline hunbroken
    subst hline
    obtain ⟨read, hlines, hread⟩ := exists_lines_append_break hunbroken more
    have hdrop : (line ++ '\n' :: more).dropWhile (fun c => isBlank c && c != '\n') =
        trimStart line ++ '\n' :: more := by
      rw [List.dropWhile_append, dropWhile_of_unbroken hunbroken,
        List.dropWhile_cons_of_neg (by simp)]
      split
      · rename_i hempty
        rw [List.isEmpty_iff.mp hempty, List.nil_append]
      · rfl
    rw [hdrop, htrim hunbroken rfl, reindent, hlines, intercalate_cons, trim_of_return hread,
      List.flatMap_map]
    by_cases hmore : more = []
    · rw [hmore, reflow, if_pos rfl, if_pos rfl]
      rfl
    · rw [reflow_newline hmore, newline_reflow_eq hmore]

end Lines

/-! ### What comes out as it was -/

/-- Nothing is lost at the line breaks of a text: no blank stands right before one, and if columns
are passed over, no space or tab right behind one. -/
structure Unmoved (column : Nat) (text : List Char) : Prop where
  ends : ∀ c, [c, '\n'] <:+: text → isBlank c = true → c = '\n'
  starts : column ≠ 0 → ∀ c, ['\n', c] <:+: text → c ≠ ' ' ∧ c ≠ '\t'

section Unmoved

variable {column n : Nat} {w rest more : List Char}

theorem Unmoved.of_unbroken (h : '\n' ∉ w) : Unmoved column w :=
  ⟨fun _ hpair => absurd (hpair.subset (by simp)) h,
    fun _ _ hpair => absurd (hpair.subset (by simp)) h⟩

theorem unmoved_cons_iff {c : Char} :
    Unmoved column (c :: w) ↔ Unmoved column w ∧
      (w.head? = some '\n' → isBlank c = true → c = '\n') ∧
      (c = '\n' → ∀ d ∈ w.head?, ¬Passes column d) := by
  have hpair : ∀ a b, [a, b] <:+: c :: w ↔ (a = c ∧ w.head? = some b) ∨ [a, b] <:+: w := by
    intro a b
    rw [List.infix_cons_iff, List.cons_prefix_cons, List.head?_eq_some_iff]
    refine or_congr_left (and_congr_right fun _ => exists_congr fun s => ?_)
    exact eq_comm
  constructor
  · intro h
    refine ⟨⟨fun a ha => h.ends a ((hpair _ _).mpr (.inr ha)),
      fun hn a ha => h.starts hn a ((hpair _ _).mpr (.inr ha))⟩, fun hhead hblank => ?_, ?_⟩
    · exact h.ends c ((hpair _ _).mpr (.inl ⟨rfl, hhead⟩)) hblank
    · rintro rfl d hd ⟨hn, hspace⟩
      obtain ⟨hne, hne'⟩ := h.starts hn d ((hpair _ _).mpr (.inl ⟨rfl, hd⟩))
      exact hspace.elim hne hne'
  · rintro ⟨h, hends, hstarts⟩
    refine ⟨fun a ha hblank => ?_, fun hn a ha => ?_⟩
    · rcases (hpair _ _).mp ha with ⟨rfl, hhead⟩ | ha
      · exact hends hhead hblank
      · exact h.ends a ha hblank
    · rcases (hpair _ _).mp ha with ⟨hc, hhead⟩ | ha
      · have hnot := hstarts hc.symm a hhead
        exact ⟨fun ha => hnot ⟨hn, .inl ha⟩, fun ha => hnot ⟨hn, .inr ha⟩⟩
      · exact h.starts hn a ha

instance decidableUnmoved (column : Nat) : (text : List Char) → Decidable (Unmoved column text)
  | [] => .isTrue (.of_unbroken List.not_mem_nil)
  | c :: w =>
    have := decidableUnmoved column w
    decidable_of_iff (Unmoved column w ∧ (w.head? = some '\n' → isBlank c = true → c = '\n') ∧
        (c = '\n' → w.head?.all (fun d => !decide (Passes column d)) = true))
      (by simp [unmoved_cons_iff, Option.all_eq_true])

/-- The text ends with a character that is no blank. -/
def EndsSolid (w : List Char) : Prop :=
  ∃ c, w.getLast? = some c ∧ isBlank c = false

theorem EndsSolid.of_cons {c d : Char} (h : EndsSolid (c :: d :: w)) : EndsSolid (d :: w) := by
  obtain ⟨e, hlast, he⟩ := h
  exact ⟨e, by rwa [List.getLast?_cons_cons] at hlast, he⟩

/-- **Where nothing is lost, a text comes out as it was**, if it ends with no blank. -/
theorem reflow_append_of_unmoved (h : Unmoved column w) (hsolid : EndsSolid w)
    (hhead : ∀ d, w.head? = some d → ¬Passes n d) :
    reflow column n (w ++ rest) = w ++ reflow column 0 rest := by
  induction w generalizing n with
  | nil =>
    obtain ⟨_, hlast, -⟩ := hsolid
    cases hlast
  | cons c w ih =>
    obtain ⟨hw, hends, hstarts⟩ := unmoved_cons_iff.mp h
    cases w with
    | nil =>
      obtain ⟨d, hlast, hd⟩ := hsolid
      obtain rfl : c = d := Option.some.inj hlast
      exact reflow_of_solid hd
    | cons e w =>
      have hrest := hsolid.of_cons
      by_cases hc : c = '\n'
      · rw [List.cons_append, hc, reflow_newline (by simp), ih hw hrest (hstarts hc)]
        rfl
      · rw [List.cons_append, reflow_of_not_passes hc (hhead c rfl),
          ih hw hrest (fun _ _ => not_passes_zero), if_neg]
        · rfl
        · rintro ⟨hblank, hend⟩
          have he := atLineEnd_cons.mp hend
          exact hc (hends (congrArg some he) hblank)

/-- The number of spaces and tabs at the start of a text. -/
def indentRun (cs : List Char) : Nat :=
  (cs.takeWhile fun c => c == ' ' || c == '\t').length

theorem indentRun_of_passes {c : Char} {r : List Char} (h : Passes n c) :
    indentRun (c :: r) = indentRun r + 1 := by
  unfold indentRun
  rw [List.takeWhile_cons_of_pos (by simpa using h.2), List.length_cons]

theorem indentRun_of_atLineEnd {cs : List Char} (h : atLineEnd cs = true) : indentRun cs = 0 := by
  cases cs with
  | nil => rfl
  | cons c r =>
    obtain rfl := atLineEnd_cons.mp h
    rfl

/-- No spaces or tabs come up at the start of a line. -/
theorem indentRun_reflow_le (cs : List Char) : indentRun (reflow column n cs) ≤ indentRun cs := by
  induction cs generalizing n with
  | nil => rw [reflow_nil]
  | cons c r ih =>
    by_cases hc : c = '\n'
    · rw [indentRun_of_atLineEnd (atLineEnd_reflow _ _ (atLineEnd_cons.mpr hc))]
      exact Nat.zero_le _
    rcases cases_reflow column n r hc with
      ⟨hpass, m, heq⟩ | ⟨-, -, hend, heq⟩ | ⟨-, -, heq⟩
    · rw [heq, indentRun_of_passes hpass]
      exact Nat.le_succ_of_le ih
    · rw [heq, indentRun_of_atLineEnd hend]
      exact Nat.zero_le _
    · rw [heq]
      have hrest := ih (n := 0)
      unfold indentRun at hrest ⊢
      rw [List.takeWhile_cons, List.takeWhile_cons]
      split
      · exact Nat.succ_le_succ hrest
      · exact Nat.le_refl _

/-- What follows a text that ends with no blank does not count for its indentation. -/
theorem EndsSolid.indentRun_append (h : EndsSolid w) (rest : List Char) :
    indentRun (w ++ rest) = indentRun w := by
  unfold indentRun
  rw [List.takeWhile_append, if_neg]
  intro hlength
  have hall := (List.takeWhile_prefix _).eq_of_length hlength
  obtain ⟨c, hlast, hc⟩ := h
  have hmem : c ∈ w.takeWhile fun c => c == ' ' || c == '\t' :=
    hall.symm ▸ List.mem_of_getLast? hlast
  have hspace : c = ' ' ∨ c = '\t' := by simpa using List.mem_takeWhile_imp hmem
  exact not_passes_of_solid (n := 1) hc ⟨Nat.one_ne_zero, hspace⟩

/-- **What comes out as it was has lost nothing.** -/
theorem unmoved_of_reflow_append (h : reflow column n (w ++ rest) = w ++ more)
    (hsolid : EndsSolid w) : Unmoved column w ∧ ∀ d, w.head? = some d → ¬Passes n d := by
  induction w generalizing n with
  | nil =>
    obtain ⟨_, hlast, -⟩ := hsolid
    cases hlast
  | cons c w ih =>
    have htail : ∀ {m}, reflow column m (w ++ rest) = w ++ more →
        Unmoved column w ∧ ∀ d, w.head? = some d → ¬Passes m d := by
      intro m hm
      cases w with
      | nil => exact ⟨.of_unbroken List.not_mem_nil, fun _ hd => nomatch hd⟩
      | cons d w => exact ih hm hsolid.of_cons
    rw [List.cons_append, List.cons_append] at h
    by_cases hc : c = '\n'
    · have hne : w ++ rest ≠ [] := by
        intro hnil
        rw [hnil, hc, reflow, if_pos rfl, if_pos rfl] at h
        cases h
      rw [hc, reflow_newline hne] at h
      obtain ⟨hw, hpass⟩ := htail (List.cons.inj h).2
      refine ⟨unmoved_cons_iff.mpr ⟨hw, fun _ _ => hc, fun _ => hpass⟩, ?_⟩
      rintro d hd ⟨-, hspace⟩
      obtain rfl : c = d := Option.some.inj hd
      rcases hspace with hspace | hspace
      · exact absurd (hc.symm.trans hspace) (by decide)
      · exact absurd (hc.symm.trans hspace) (by decide)
    rcases cases_reflow column n (w ++ rest) hc with
      ⟨hpass, m, heq⟩ | ⟨-, -, hend, heq⟩ | ⟨hpass, hkept, heq⟩
    · -- A space or tab is missing at the start of the line.
      have hle : indentRun (c :: (w ++ more)) ≤ indentRun (w ++ rest) := by
        rw [← h, heq]
        exact indentRun_reflow_le _
      rw [← List.cons_append, hsolid.indentRun_append, ← hsolid.indentRun_append rest,
        List.cons_append, indentRun_of_passes hpass] at hle
      omega
    · -- The line has ended in place of the character.
      rw [← heq, h] at hend
      exact absurd (atLineEnd_cons.mp hend) hc
    · rw [heq] at h
      obtain ⟨hw, -⟩ := htail (List.cons.inj h).2
      refine ⟨unmoved_cons_iff.mpr ⟨hw, fun hhead hblank => ?_, fun heq => absurd heq hc⟩, ?_⟩
      · refine absurd ⟨hblank, ?_⟩ hkept
        obtain ⟨s, rfl⟩ := List.head?_eq_some_iff.mp hhead
        exact atLineEnd_reflow _ _ rfl
      · rintro d ⟨⟩
        exact hpass

end Unmoved

/-- **On the first line nothing is seen that was not there before.** -/
theorem lineWithin_reflow (column : Nat) (cs : List Char) :
    Token.LineWithin (reflow column 0 cs) cs := by
  have hnone : ∀ {ds cs : List Char}, atLineEnd ds = true → Token.LineWithin ds cs := by
    intro ds cs hds
    have htake : ds.takeWhile (· != '\n') = [] := by
      cases ds with
      | nil => rfl
      | cons d r =>
        rw [atLineEnd_cons.mp hds]
        rfl
    rw [Token.LineWithin, htake]
    exact List.nil_prefix
  induction cs with
  | nil =>
    rw [reflow_nil]
    exact hnone rfl
  | cons c r ih =>
    by_cases hc : c = '\n'
    · exact hnone (atLineEnd_reflow _ _ (atLineEnd_cons.mpr hc))
    rcases cases_reflow column 0 r hc with
      ⟨hpass, -⟩ | ⟨-, -, hend, heq⟩ | ⟨-, -, heq⟩
    · exact absurd hpass not_passes_zero
    · exact heq ▸ hnone hend
    · rw [heq]
      exact ih.cons c

/-! ### Blanks -/

/-- Nothing is put into the code, and nothing changes its order. -/
theorem reflow_sublist (column n : Nat) (cs : List Char) : (reflow column n cs).Sublist cs := by
  induction cs generalizing n with
  | nil => rw [reflow_nil]
  | cons c r ih =>
    by_cases hc : c = '\n'
    · subst hc
      by_cases hr : r = []
      · rw [reflow, if_pos rfl, if_pos hr]
        exact List.nil_sublist _
      · rw [reflow_newline hr]
        exact (ih _).cons_cons '\n'
    rcases cases_reflow column n r hc with
      ⟨-, m, heq⟩ | ⟨-, -, -, heq⟩ | ⟨-, -, heq⟩
    · rw [heq]
      exact (ih _).cons c
    · rw [heq]
      exact (ih _).cons c
    · rw [heq]
      exact (ih _).cons_cons c

/-- Blanks before something else do not vanish altogether, and no line break of them does. -/
theorem exists_reflow_blanks (column n : Nat) {bs : List Char} (hbs : ∀ d ∈ bs, isBlank d = true)
    {c : Char} (hc : isBlank c = false) (r : List Char) :
    ∃ bs', reflow column n (bs ++ c :: r) = bs' ++ reflow column 0 (c :: r) ∧
      (∀ d ∈ bs', isBlank d = true) ∧ ('\n' ∈ bs' ↔ '\n' ∈ bs) ∧ (n = 0 → bs ≠ [] → bs' ≠ []) := by
  induction bs generalizing n with
  | nil =>
    refine ⟨[], ?_, nofun, Iff.rfl, fun _ hne => absurd rfl hne⟩
    rw [List.nil_append, reflow_of_solid hc, reflow_of_solid hc]
    rfl
  | cons b bs ih =>
    obtain ⟨hb, hbs⟩ := List.forall_mem_cons.mp hbs
    by_cases hbreak : b = '\n'
    · obtain ⟨bs', heq, hblank, -, -⟩ := ih column hbs
      refine ⟨'\n' :: bs', ?_, List.forall_mem_cons.mpr ⟨isBlank_newline, hblank⟩, ?_, ?_⟩
      · rw [hbreak, List.cons_append, reflow_newline (by simp), heq]
        rfl
      · simp [hbreak]
      · exact fun _ _ => List.cons_ne_nil _ _
    have hmem : '\n' ∈ b :: bs ↔ '\n' ∈ bs := by simp [Ne.symm hbreak]
    rcases cases_reflow column n (bs ++ c :: r) hbreak with
      ⟨hpass, m, hreflow⟩ | ⟨-, -, hend, hreflow⟩ | ⟨-, -, hreflow⟩
    · obtain ⟨bs', heq, hblank, hbreaks, -⟩ := ih m hbs
      refine ⟨bs', ?_, hblank, hbreaks.trans hmem.symm, fun hn => absurd hn hpass.1⟩
      rw [List.cons_append, hreflow, heq]
    · obtain ⟨bs', heq, hblank, hbreaks, -⟩ := ih 0 hbs
      refine ⟨bs', ?_, hblank, hbreaks.trans hmem.symm, fun _ _ hnil => ?_⟩
      · rw [List.cons_append, hreflow, heq]
      · -- What follows is the end of a line, and so not yet what is no blank.
        rw [heq, hnil, List.nil_append, reflow_of_solid hc] at hend
        exact ne_newline_of_solid hc (atLineEnd_cons.mp hend)
    · obtain ⟨bs', heq, hblank, hbreaks, -⟩ := ih 0 hbs
      refine ⟨b :: bs', ?_, List.forall_mem_cons.mpr ⟨hb, hblank⟩, ?_, ?_⟩
      · rw [List.cons_append, hreflow, heq]
        rfl
      · rw [List.mem_cons, List.mem_cons, hbreaks]
      · exact fun _ _ => List.cons_ne_nil _ _

end ClassSugar
