import ClassSugar.Proofs.PageText

/-!
# Trimming lines

What trimming takes from a line, and what a carriage return at the end of a line changes: nothing,
once the line is trimmed (`trimEnd_of_return`).
-/

namespace ClassSugar

open ClassSugar.Text

theorem trimEnd_append (a r : List Char) :
    trimEnd (a ++ r) = if trimEnd r = [] then trimEnd a else a ++ trimEnd r := by
  unfold trimEnd
  rw [List.reverse_append, List.dropWhile_append]
  by_cases hnil : r.reverse.dropWhile isBlank = []
  · simp [hnil]
  · simp [hnil]

theorem trimEnd_eq_nil_iff {line : List Char} :
    trimEnd line = [] ↔ ∀ c ∈ line, isBlank c = true := by
  simp [trimEnd, List.dropWhile_eq_nil_iff]

/-- Blanks at the end are not seen. -/
theorem trimEnd_append_blanks (line : List Char) {blanks : List Char}
    (h : ∀ c ∈ blanks, isBlank c = true) : trimEnd (line ++ blanks) = trimEnd line := by
  rw [trimEnd_append, if_pos (trimEnd_eq_nil_iff.mpr h)]

/-- A character stays if something that is no blank is there, it or one behind it. -/
theorem trimEnd_cons {c : Char} {r : List Char} (h : ∃ d ∈ c :: r, isBlank d = false) :
    trimEnd (c :: r) = c :: trimEnd r := by
  by_cases hr : trimEnd r = []
  · -- Only blanks stand behind the character, so it is the one that is none.
    have hc : isBlank c = false := by
      obtain ⟨d, hd, hsolid⟩ := h
      rcases List.mem_cons.mp hd with rfl | hd
      · exact hsolid
      · rw [trimEnd_eq_nil_iff.mp hr d hd] at hsolid
        cases hsolid
    rw [← List.singleton_append, trimEnd_append, if_pos hr, hr]
    simp [trimEnd, hc]
  · rw [← List.singleton_append, trimEnd_append, if_neg hr]
    rfl

theorem isPrefix_trimEnd (line : List Char) : trimEnd line <+: line := by
  simpa [trimEnd] using List.reverse_prefix.mpr (List.dropWhile_suffix isBlank (l := line.reverse))

theorem trim_trim (line : List Char) : trim (trim line) = trim line := by
  unfold trim
  cases hstart : trimStart line with
  | nil => rfl
  | cons c r =>
    have hc : isBlank c = false := by
      have hhead := List.head?_dropWhile_not isBlank line
      rw [show line.dropWhile isBlank = c :: r from hstart] at hhead
      simpa using hhead
    -- What is left starts with no blank, so only its end is trimmed a second time.
    have hsolid : ∃ d ∈ c :: r, isBlank d = false := ⟨c, List.mem_cons_self, hc⟩
    have hagain : trimEnd (trimEnd (c :: r)) = trimEnd (c :: r) := List.rdropWhile_idempotent _ _
    rw [trimEnd_cons hsolid, trimStart, List.dropWhile_cons_of_neg (by simp [hc]),
      ← trimEnd_cons hsolid, hagain]

/-! ### Lines of any text -/

/-- A text is a line, and a line break and more behind it if it has one. -/
theorem cases_first_line (text : List Char) :
    '\n' ∉ text.takeWhile (· != '\n') ∧
      (text = text.takeWhile (· != '\n') ∨
        ∃ r, text = text.takeWhile (· != '\n') ++ '\n' :: r) := by
  have hsplit := List.takeWhile_append_dropWhile (p := (· != '\n')) (l := text)
  refine ⟨fun hmem => by simpa using List.mem_takeWhile_imp hmem, ?_⟩
  cases hrest : text.dropWhile (· != '\n') with
  | nil =>
    rw [hrest, List.append_nil] at hsplit
    exact .inl hsplit.symm
  | cons d r =>
    have hd := List.head?_dropWhile_not (· != '\n') text
    rw [hrest] at hd hsplit
    obtain rfl : d = '\n' := by simpa using hd
    exact .inr ⟨r, hsplit.symm⟩

/-- A line as it is read: without the carriage return at its end, if there is one. -/
theorem exists_lines_append_break {line : List Char} (h : '\n' ∉ line) (rest : List Char) :
    ∃ read, lines (line ++ '\n' :: rest) = read :: lines rest ∧
      (line = read ∨ line = read ++ ['\r']) := by
  refine ⟨(dropReturn line.reverse).reverse, ?_, ?_⟩
  · rw [lines, linesAfter_append_break h, List.append_nil]
    rfl
  · unfold dropReturn
    split
    · rename_i r hrev
      refine .inr ?_
      rw [← List.reverse_reverse line, hrev, List.reverse_cons]
    · exact .inl (List.reverse_reverse line).symm

theorem lines_of_unbroken {line : List Char} (h : '\n' ∉ line) (hne : line ≠ []) :
    lines line = [line] := by
  rw [lines, linesAfter_of_unbroken h]
  simpa using hne

/-- The carriage return at the end of a line is a blank like others. -/
theorem trimEnd_of_return {line read : List Char} (h : line = read ∨ line = read ++ ['\r']) :
    trimEnd read = trimEnd line := by
  rcases h with rfl | rfl
  · rfl
  · exact (trimEnd_append_blanks read (List.forall_mem_singleton.mpr rfl)).symm

end ClassSugar
