import Mathlib.Data.List.DropRight
import ClassSugar.Page.Basic

/-!
# Code on a page

Code that is kept as text is laid out anew when it is written: `reindent` takes its lines apart, and
on the page each later line stands at the indentation of the first (`onPage`). This module follows
such a text through a second reading. What is read off the page starts at some column, which is the
indentation if the text stands alone on its rows, and further right if something is written before
it.

* `reindent_onPage` — the lines found the second time, one by one: a later line is read with the
  indentation that it has on the page, and loses as many columns as lie before the text.
* `relaid_eq_iff` — which lines come out as they were: those that are *flush* (`Flush`). Every line
  is, if the text stands alone (`relaid_self`); with something before it, a line is not if it starts
  with a blank.
-/

namespace ClassSugar

open ClassSugar.Text

/-! ### Tidy lines -/

/-- A line without a break in it and without blanks at its end. -/
structure Tidy (line : List Char) : Prop where
  unbroken : '\n' ∉ line
  ends : ∀ c ∈ line.getLast?, isBlank c = false

variable {line : List Char}

theorem Tidy.nil : Tidy [] :=
  ⟨by simp, nofun⟩

theorem trimEnd_of_tidy (h : Tidy line) : trimEnd line = line := by
  unfold trimEnd
  have hhead : line.reverse.dropWhile isBlank = line.reverse := by
    cases hrev : line.reverse with
    | nil => rfl
    | cons c r =>
      have hlast : line.getLast? = some c := by
        rw [← List.head?_reverse, hrev, List.head?_cons]
      rw [List.dropWhile_cons_of_neg (by rw [h.ends c hlast]; exact Bool.false_ne_true)]
  rw [hhead, List.reverse_reverse]

theorem tidy_trimEnd (h : '\n' ∉ line) : Tidy (trimEnd line) := by
  have hsuffix : line.reverse.dropWhile isBlank <:+ line.reverse := List.dropWhile_suffix _
  refine ⟨fun hmem => h ?_, fun c hc => ?_⟩
  · have hrev : '\n' ∈ line.reverse.dropWhile isBlank := by simpa [trimEnd] using hmem
    simpa using hsuffix.subset hrev
  · rw [trimEnd, List.getLast?_reverse] at hc
    have hnot := List.head?_dropWhile_not isBlank line.reverse
    rw [Option.mem_def] at hc
    rw [hc] at hnot
    exact hnot

/-! ### Lines of a text -/

theorem linesAfter_append_break (h : '\n' ∉ line) (reversed rest : List Char) :
    linesAfter reversed (line ++ '\n' :: rest) =
      (dropReturn (line.reverse ++ reversed)).reverse :: linesAfter [] rest := by
  induction line generalizing reversed with
  | nil => simp [linesAfter]
  | cons c r ih =>
    have hc : c ≠ '\n' := fun heq => h (heq ▸ List.mem_cons_self)
    have hr : '\n' ∉ r := fun hmem => h (List.mem_cons_of_mem _ hmem)
    rw [List.cons_append, linesAfter, if_neg hc, ih hr]
    simp

theorem linesAfter_of_unbroken (h : '\n' ∉ line) (reversed : List Char) :
    linesAfter reversed line =
      if (line.reverse ++ reversed).isEmpty then [] else [(line.reverse ++ reversed).reverse] := by
  induction line generalizing reversed with
  | nil => simp [linesAfter]
  | cons c r ih =>
    have hc : c ≠ '\n' := fun heq => h (heq ▸ List.mem_cons_self)
    have hr : '\n' ∉ r := fun hmem => h (List.mem_cons_of_mem _ hmem)
    rw [linesAfter, if_neg hc, ih hr]
    simp

/-- A tidy line has no carriage return at its end to lose. -/
theorem Tidy.dropReturn_reverse (h : Tidy line) :
    dropReturn line.reverse = line.reverse := by
  unfold dropReturn
  split
  · rename_i r hrev
    have hlast : line.getLast? = some '\r' := by
      rw [← List.head?_reverse, hrev, List.head?_cons]
    exact absurd (h.ends '\r' hlast) (by decide)
  · rfl

theorem lines_append_break (h : Tidy line) (rest : List Char) :
    lines (line ++ '\n' :: rest) = line :: lines rest := by
  unfold lines
  rw [linesAfter_append_break h.unbroken, List.append_nil, h.dropReturn_reverse,
    List.reverse_reverse]

theorem lines_of_tidy (h : Tidy line) (hne : line ≠ []) :
    lines line = [line] := by
  unfold lines
  rw [linesAfter_of_unbroken h.unbroken]
  simpa using hne

theorem unbroken_of_mem_linesAfter {reversed text : List Char} (h : '\n' ∉ reversed)
    (hline : line ∈ linesAfter reversed text) : '\n' ∉ line := by
  have hdrop : ∀ r : List Char, '\n' ∉ r → '\n' ∉ dropReturn r := by
    intro r hr
    unfold dropReturn
    split
    · exact fun hmem => hr (List.mem_cons_of_mem _ hmem)
    · exact hr
  induction text generalizing reversed with
  | nil =>
    rw [linesAfter] at hline
    split at hline
    · cases hline
    · obtain rfl := List.mem_singleton.mp hline
      simpa using h
  | cons c r ih =>
    rw [linesAfter] at hline
    split at hline
    · rcases List.mem_cons.mp hline with rfl | hline
      · simpa using hdrop reversed h
      · exact ih List.not_mem_nil hline
    · rename_i hc
      refine ih ?_ hline
      intro hmem
      rcases List.mem_cons.mp hmem with heq | hmem
      · exact hc heq.symm
      · exact h hmem

/-! ### Indentation -/

/-- A line at an indentation; an empty line gets none. -/
def indentLine (indent : Nat) (line : List Char) : List Char :=
  if line = [] then [] else List.replicate indent ' ' ++ line

theorem indentLine_of_ne_nil {indent : Nat} (h : line ≠ []) :
    indentLine indent line = List.replicate indent ' ' ++ line :=
  if_neg h

theorem indentLine_eq_nil_iff {indent : Nat} :
    indentLine indent line = [] ↔ line = [] := by
  unfold indentLine
  split
  · simp [*]
  · simp [*]

theorem Tidy.indentLine (h : Tidy line) (indent : Nat) :
    Tidy (indentLine indent line) := by
  by_cases hne : line = []
  · rw [hne]
    exact Tidy.nil
  · rw [indentLine_of_ne_nil hne]
    refine ⟨?_, fun c hc => h.ends c ?_⟩
    · simpa using h.unbroken
    · rwa [List.getLast?_append_of_ne_nil _ hne] at hc

/-- A line without the blanks in its first columns is an end of that line. -/
theorem stripColumns_suffix (columns : Nat) (line : List Char) :
    stripColumns columns line <:+ line := by
  fun_induction stripColumns columns line with
  | case1 => exact List.suffix_refl _
  | case2 => exact List.suffix_refl _
  | case3 columns r hcolumns ih | case4 columns r hcolumns hspace ih =>
    exact ih.trans (List.suffix_cons _ _)
  | case5 => exact List.suffix_refl _

theorem stripColumns_zero (line : List Char) : stripColumns 0 line = line := by
  cases line <;> simp [stripColumns]

/-- Of an indentation, as many columns are taken as there are to take. -/
theorem stripColumns_replicate (indent columns : Nat) (line : List Char) :
    stripColumns columns (List.replicate indent ' ' ++ line) =
      List.replicate (indent - columns) ' ' ++ stripColumns (columns - indent) line := by
  induction indent generalizing columns with
  | zero => simp
  | succ indent ih =>
    cases columns with
    | zero => simp [stripColumns_zero]
    | succ columns =>
      rw [List.replicate_succ, List.cons_append, stripColumns, if_neg (Nat.succ_ne_zero _),
        if_pos rfl, Nat.add_sub_cancel, ih, Nat.add_sub_add_right, Nat.add_sub_add_right]

/-- A tidy line is not used up: its last character is no blank. -/
theorem Tidy.stripColumns_ne_nil (h : Tidy line) (hne : line ≠ []) (columns : Nat) :
    stripColumns columns line ≠ [] := by
  fun_induction stripColumns columns line with
  | case1 => exact absurd rfl hne
  | case2 => exact hne
  | case3 columns r hcolumns ih =>
    have hr : r ≠ [] := by
      rintro rfl
      exact absurd (h.ends ' ' rfl) (by decide)
    refine ih ⟨fun hmem => h.unbroken (List.mem_cons_of_mem _ hmem), fun c hc => h.ends c ?_⟩ hr
    rwa [List.getLast?_cons_of_ne_nil hr]
  | case4 columns r hcolumns hspace ih =>
    have hr : r ≠ [] := by
      rintro rfl
      exact absurd (h.ends '\t' rfl) (by decide)
    refine ih ⟨fun hmem => h.unbroken (List.mem_cons_of_mem _ hmem), fun c hc => h.ends c ?_⟩ hr
    rwa [List.getLast?_cons_of_ne_nil hr]
  | case5 => exact hne

theorem Tidy.of_suffix {rest : List Char} (h : Tidy line) (hsuffix : rest <:+ line) :
    Tidy rest := by
  by_cases hne : rest = []
  · rw [hne]
    exact Tidy.nil
  · refine ⟨fun hmem => h.unbroken (hsuffix.subset hmem), fun c hc => h.ends c ?_⟩
    obtain ⟨before, rfl⟩ := hsuffix
    rwa [List.getLast?_append_of_ne_nil _ hne]

/-! ### Later lines, read again -/

/-- A later line of code that starts at a column, as it is laid out after it was read off a page. -/
def relaid (indent column : Nat) (line : List Char) : List Char :=
  trimEnd (stripColumns column (indentLine indent line))

/-- A later line is *flush* with a text that starts at a column if it has no indentation of its own
to lose: it is empty, or the text stands alone on its rows, or something stands before the text and
the line starts with no blank. -/
def Flush (indent column : Nat) (line : List Char) : Prop :=
  line = [] ∨ column = indent ∨ (indent < column ∧ line.head? ≠ some ' ' ∧ line.head? ≠ some '\t')

theorem relaid_of_tidy (h : Tidy line) (indent column : Nat) :
    relaid indent column line = stripColumns column (indentLine indent line) :=
  trimEnd_of_tidy ((h.indentLine indent).of_suffix (stripColumns_suffix _ _))

theorem relaid_eq_nil_iff (h : Tidy line) {indent column : Nat} :
    relaid indent column line = [] ↔ line = [] := by
  rw [relaid_of_tidy h]
  constructor
  · intro hnil
    by_contra hne
    exact (h.indentLine indent).stripColumns_ne_nil (mt indentLine_eq_nil_iff.mp hne) column hnil
  · rintro rfl
    rfl

/-- Taking columns from a line leaves it as it is exactly if it starts with no blank. -/
theorem stripColumns_eq_self_iff {columns : Nat} (hpos : 0 < columns) (line : List Char) :
    stripColumns columns line = line ↔ line.head? ≠ some ' ' ∧ line.head? ≠ some '\t' := by
  cases line with
  | nil => simp [stripColumns]
  | cons c r =>
    have hshort : ∀ columns, stripColumns columns r ≠ c :: r := by
      intro columns heq
      have hle := (stripColumns_suffix columns r).length_le
      rw [heq, List.length_cons] at hle
      omega
    rw [stripColumns, if_neg hpos.ne']
    by_cases hspace : c = ' '
    · simp [hspace ▸ hshort (columns - 1), hspace]
    · by_cases htab : c = '\t'
      · simp [htab ▸ hshort (columns - Place.tabWidth), htab]
      · simp [hspace, htab]

/-- **Flush lines, and only these, come out as they were.** -/
theorem relaid_eq_iff (h : Tidy line) (indent column : Nat) :
    relaid indent column line = line ↔ Flush indent column line := by
  by_cases hne : line = []
  · exact ⟨fun _ => .inl hne, fun _ => hne ▸ rfl⟩
  rw [relaid_of_tidy h, indentLine_of_ne_nil hne, stripColumns_replicate, Flush]
  rcases Nat.lt_trichotomy column indent with hlt | heq | hgt
  · -- Fewer columns are taken than the indentation has: the line grows.
    have hlong : List.replicate (indent - column) ' ' ++ stripColumns (column - indent) line ≠
        line := by
      intro heq
      rw [Nat.sub_eq_zero_of_le hlt.le, stripColumns_zero] at heq
      have hlength := congrArg List.length heq
      rw [List.length_append, List.length_replicate] at hlength
      omega
    simp only [hlong, hne, false_iff, false_or, not_or]
    exact ⟨hlt.ne, fun hgt => absurd hgt.1 (by omega)⟩
  · -- The indentation is taken, and nothing else.
    simp [heq, stripColumns_zero]
  · -- More is taken than the indentation has: the line loses the blanks that it starts with.
    have hzero : List.replicate (indent - column) ' ' = [] := by
      rw [Nat.sub_eq_zero_of_le hgt.le, List.replicate_zero]
    rw [hzero, List.nil_append, stripColumns_eq_self_iff (Nat.sub_pos_of_lt hgt)]
    simp [hne, hgt.ne', hgt]

theorem relaid_self (h : Tidy line) (indent : Nat) :
    relaid indent indent line = line :=
  (relaid_eq_iff h indent indent).mpr (.inr (.inl rfl))

/-! ### Texts on a page -/

/-- Lines of code as they stand on a page, from the first character of the first line on. -/
def onPage (indent : Nat) : List (List Char) → List Char
  | [] => []
  | first :: rest => first ++ rest.flatMap fun line => '\n' :: indentLine indent line

/-- A text that starts and ends with a character that is no blank, as all code does. -/
def Solid (text : List Char) : Prop :=
  text.head?.any (fun c => !isBlank c) = true ∧ text.getLast?.any (fun c => !isBlank c) = true

instance (text : List Char) : Decidable (Solid text) :=
  inferInstanceAs (Decidable (_ ∧ _))

section Solid

variable {indent : Nat} {first : List Char} {rest : List (List Char)}

theorem Solid.first_ne_nil (h : Solid (onPage indent (first :: rest))) : first ≠ [] := by
  rintro rfl
  cases rest with
  | nil | cons line rest => exact absurd h.1 (by simp [onPage])

theorem Solid.last_ne_nil (h : Solid (onPage indent (first :: rest))) :
    (first :: rest).getLast? ≠ some [] := by
  intro hlast
  rcases List.eq_nil_or_concat rest with rfl | ⟨init, last, rfl⟩
  · exact h.first_ne_nil (by simpa using hlast)
  · have hnil : last = [] := by simpa [List.getLast?_cons] using hlast
    exact absurd h.2 (by simp [onPage, hnil, indentLine])

theorem Solid.head_first (h : Solid (onPage indent (first :: rest))) :
    ∀ c ∈ first.head?, isBlank c = false := by
  obtain ⟨c, r, rfl⟩ := List.exists_cons_of_ne_nil h.first_ne_nil
  simpa [onPage] using h.1

/-- The lines of a text on a page: the later ones with their indentation. -/
theorem lines_onPage (htidy : ∀ line ∈ first :: rest, Tidy line)
    (hlast : (first :: rest).getLast? ≠ some []) :
    lines (onPage indent (first :: rest)) = first :: rest.map (indentLine indent) := by
  induction rest generalizing first with
  | nil =>
    have hne : first ≠ [] := by simpa using hlast
    simpa [onPage] using lines_of_tidy (htidy first List.mem_cons_self) hne
  | cons line rest ih =>
    have hfirst : Tidy first := htidy first List.mem_cons_self
    have hline : Tidy line := htidy line (by simp)
    have hpage : onPage indent (first :: line :: rest) =
        first ++ '\n' :: onPage indent (indentLine indent line :: rest) := by
      simp [onPage]
    rw [hpage, lines_append_break hfirst, List.map_cons]
    refine congrArg (first :: ·) (ih ?_ ?_)
    · intro l hl
      rcases List.mem_cons.mp hl with rfl | hl
      · exact hline.indentLine indent
      · exact htidy l (by simp [hl])
    · cases rest with
      | nil => simpa [indentLine_eq_nil_iff] using hlast
      | cons l rest => simpa [List.getLast?_cons_cons] using hlast

/-- **A text read off a page.** Its first line is found again, and each later line as it is laid out
the second time. -/
theorem reindent_onPage (htidy : ∀ line ∈ first :: rest, Tidy line)
    (hsolid : Solid (onPage indent (first :: rest))) (column : Nat) :
    reindent column (onPage indent (first :: rest)) =
      first :: rest.map (relaid indent column) := by
  have htrim : trim first = first := by
    have hstart : trimStart first = first := by
      obtain ⟨c, r, rfl⟩ := List.exists_cons_of_ne_nil hsolid.first_ne_nil
      have hc : isBlank c = false := hsolid.head_first c rfl
      rw [trimStart, List.dropWhile_cons_of_neg (by rw [hc]; exact Bool.false_ne_true)]
    rw [trim, hstart, trimEnd_of_tidy (htidy first List.mem_cons_self)]
  unfold reindent
  rw [lines_onPage htidy hsolid.last_ne_nil]
  simp only [htrim, List.map_map]
  rfl

end Solid

/-- Code that is laid out anew has a first line, and all its lines are tidy. -/
theorem reindent_tidy (column : Nat) (text : List Char) :
    ∃ first rest, reindent column text = first :: rest ∧ ∀ line ∈ first :: rest, Tidy line := by
  unfold reindent
  cases hlines : lines text with
  | nil => exact ⟨[], [], rfl, by simpa using Tidy.nil⟩
  | cons first rest =>
    refine ⟨_, _, rfl, fun line hline => ?_⟩
    have hunbroken : ∀ l ∈ first :: rest, '\n' ∉ l := fun l hl =>
      unbroken_of_mem_linesAfter List.not_mem_nil (hlines ▸ hl : l ∈ lines text)
    rcases List.mem_cons.mp hline with rfl | hline
    · refine tidy_trimEnd fun hmem => hunbroken first List.mem_cons_self ?_
      exact (List.dropWhile_suffix _).subset hmem
    · obtain ⟨old, hold, rfl⟩ := List.mem_map.mp hline
      refine tidy_trimEnd fun hmem => hunbroken old (List.mem_cons_of_mem _ hold) ?_
      exact (stripColumns_suffix _ _).subset hmem

end ClassSugar
