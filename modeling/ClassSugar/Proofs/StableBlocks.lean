import Mathlib.Logic.Function.Iterate
import ClassSugar.Proofs.TrimmedLines

/-!
# Blocks of code, written twice

Code that stands alone on its rows is written with its lines at one indentation. If the text that
was written is taken for code that starts at that indentation, it has the lines that it was written
with, so writing it again changes nothing (`Row.block_stable`).

The page may end its lines either way: a carriage return before a line break belongs to no line. The
lines themselves are tidy (`reindent_tidy`), so none of them has a carriage return of its own at its
end, and a blank line has no indentation that could be lost.
-/

namespace ClassSugar

open ClassSugar.Text

/-! ### Line ends -/

/-- Characters with each line break written as the line end says. -/
def LineEnd.expand : LineEnd → List Char → List Char
  | .lf, page => page
  | .crlf, page => page.flatMap fun c => if c = '\n' then ['\r', '\n'] else [c]

namespace LineEnd

variable (e : LineEnd)

@[simp] theorem expand_nil : e.expand [] = [] := by
  cases e <;> rfl

theorem expand_append (a b : List Char) : e.expand (a ++ b) = e.expand a ++ e.expand b := by
  cases e with
  | lf => rfl
  | crlf => exact List.flatMap_append

/-- A line without a break stays as it is. -/
theorem expand_of_unbroken {line : List Char} (h : '\n' ∉ line) : e.expand line = line := by
  cases e with
  | lf => rfl
  | crlf =>
    induction line with
    | nil => rfl
    | cons c r ih =>
      obtain ⟨hc, hr⟩ := not_or.mp (mt List.mem_cons.mpr h)
      have hrest := ih hr
      rw [expand] at hrest ⊢
      rw [List.flatMap_cons, if_neg (Ne.symm hc), hrest, List.singleton_append]

theorem expand_break : e.expand ['\n'] = e.text.toList := by
  cases e <;> rfl

/-- A line that is ended either way is read as it was. -/
theorem lines_append {line : List Char} (h : Tidy line) (rest : List Char) :
    lines (line ++ e.text.toList ++ rest) = line :: lines rest := by
  cases e with
  | lf => simpa [LineEnd.text] using lines_append_break h rest
  | crlf =>
    have hunbroken : '\n' ∉ line ++ ['\r'] := by simpa using h.unbroken
    have hsplit : line ++ LineEnd.crlf.text.toList ++ rest = (line ++ ['\r']) ++ '\n' :: rest := by
      simp [LineEnd.text]
    have hreturn : dropReturn ((line ++ ['\r']).reverse ++ []) = line.reverse := by
      simp [dropReturn]
    rw [hsplit, lines, linesAfter_append_break hunbroken, hreturn, List.reverse_reverse]
    rfl

/-- **Lines that are ended one by one are read as they were.** -/
theorem lines_flatMap {ls : List (List Char)} (h : ∀ line ∈ ls, Tidy line) :
    lines (ls.flatMap fun line => line ++ e.text.toList) = ls := by
  induction ls with
  | nil => rfl
  | cons line rest ih =>
    obtain ⟨hline, hrest⟩ := List.forall_mem_cons.mp h
    rw [List.flatMap_cons, lines_append e hline, ih hrest]

end LineEnd

/-! ### Rows at one level -/

namespace Row

theorem render_eq (layout : Layout) (rows : List Row) :
    render layout rows = String.ofList
      (layout.lineEnd.expand (rows.foldl (write layout.indentWidth.toNat) []).reverse) := by
  unfold render
  cases layout.lineEnd <;> rfl

theorem verbatim_alone (v : Verbatim) :
    verbatim "" v "" =
      (reindent v.column v.text.toList).map fun line => .line 0 (String.ofList line) := by
  unfold verbatim
  induction reindent v.column v.text.toList with
  | nil => rfl
  | cons first rest ih =>
    cases rest with
    | nil => simp [between]
    | cons next rest => simpa [between] using ih

/-- The rows of code that stands alone at a level of indentation. -/
def block (level : Nat) (v : Verbatim) : List Row :=
  indented^[level] (verbatim "" v "")

theorem block_eq (level : Nat) (v : Verbatim) :
    block level v =
      (reindent v.column v.text.toList).map fun line => .line level (String.ofList line) := by
  rw [block, verbatim_alone]
  induction level with
  | zero => rfl
  | succ level ih =>
    rw [Function.iterate_succ_apply', ih, indented, List.map_map]
    rfl

/-- Rows at a level are written below a page, each line with its indentation. -/
theorem foldl_write_lines (width level : Nat) (ls : List (List Char)) (page : List Char) :
    (ls.map fun line => Row.line level (String.ofList line)).foldl (write width) page =
      (ls.flatMap fun line => indentLine (level * width) line ++ ['\n']).reverse ++ page := by
  induction ls generalizing page with
  | nil => rfl
  | cons line rest ih =>
    have hrow : write width page (.line level (String.ofList line)) =
        (indentLine (level * width) line ++ ['\n']).reverse ++ page := by
      by_cases hline : line = []
      · rw [hline]
        rfl
      · have hne : (String.ofList line).isEmpty = false := by
          rw [Bool.eq_false_iff, ne_eq, String.isEmpty_iff, String.ofList_eq_empty_iff]
          exact hline
        simp [write, hne, indentLine_of_ne_nil hline]
    rw [List.map_cons, List.foldl_cons, hrow, ih, List.flatMap_cons, ← List.append_assoc,
      ← List.reverse_append]

/-- The text of a page with a block at its end. -/
theorem render_append_block (layout : Layout) (level : Nat) (v : Verbatim) (above : List Row) :
    render layout (above ++ block level v) = render layout above ++
      String.ofList ((reindent v.column v.text.toList).flatMap fun line =>
        indentLine (level * layout.indentWidth.toNat) line ++ layout.lineEnd.text.toList) := by
  have hexpand : ∀ ls : List (List Char), (∀ line ∈ ls, Tidy line) →
      layout.lineEnd.expand
          (ls.flatMap fun line => indentLine (level * layout.indentWidth.toNat) line ++ ['\n']) =
        ls.flatMap fun line =>
          indentLine (level * layout.indentWidth.toNat) line ++ layout.lineEnd.text.toList := by
    intro ls htidy
    induction ls with
    | nil => exact layout.lineEnd.expand_nil
    | cons line rest ih =>
      obtain ⟨hline, hrest⟩ := List.forall_mem_cons.mp htidy
      rw [List.flatMap_cons, List.flatMap_cons, LineEnd.expand_append, LineEnd.expand_append,
        LineEnd.expand_of_unbroken _ (hline.indentLine _).unbroken, LineEnd.expand_break, ih hrest]
  obtain ⟨first, rest, hlines, htidy⟩ := reindent_tidy v.column v.text.toList
  rw [render_eq, render_eq, block_eq, List.foldl_append, foldl_write_lines, List.reverse_append,
    List.reverse_reverse, LineEnd.expand_append, String.ofList_append, hexpand _ (hlines ▸ htidy)]

end Row

/-! ### Written twice -/

/-- The first line of a text has a character that is no blank. -/
def StartsSolid (text : List Char) : Prop :=
  ∃ c ∈ text.takeWhile (· != '\n'), isBlank c = false

/-- Such a text is laid out with a first line that is not empty. -/
theorem StartsSolid.exists_reindent {text : List Char} (h : StartsSolid text) (column : Nat) :
    ∃ line rest, reindent column text = trim line :: rest ∧ trim line ≠ [] := by
  obtain ⟨c, hc, hsolid⟩ := h
  obtain ⟨hunbroken, hrest⟩ := cases_first_line text
  -- What is not blank stays in the line, whether or not a carriage return is taken from it.
  have hkept : ∀ read, text.takeWhile (· != '\n') = read ∨
      text.takeWhile (· != '\n') = read ++ ['\r'] → trim read ≠ [] := by
    intro read hread hnil
    have hmem : c ∈ read := by
      rcases hread with hread | hread
      · exact hread ▸ hc
      · refine (List.mem_append.mp (hread ▸ hc)).resolve_right fun hreturn => ?_
        obtain rfl := List.mem_singleton.mp hreturn
        exact absurd hsolid (by decide)
    have hdropped : ∀ d ∈ trimStart read, isBlank d = true := trimEnd_eq_nil_iff.mp hnil
    have hall : ∀ d ∈ read, isBlank d = true := by
      intro d hd
      rw [← List.takeWhile_append_dropWhile (p := isBlank) (l := read)] at hd
      rcases List.mem_append.mp hd with hd | hd
      · exact List.mem_takeWhile_imp hd
      · exact hdropped d hd
    rw [hall c hmem] at hsolid
    cases hsolid
  rcases hrest with hline | ⟨r, hline⟩
  · have hlines : lines text = [text] := by
      refine lines_of_unbroken (hline ▸ hunbroken) ?_
      rintro rfl
      cases hc
    exact ⟨text, [], by rw [reindent, hlines]; rfl, hkept text (.inl hline.symm)⟩
  · obtain ⟨read, hlines, hread⟩ := exists_lines_append_break hunbroken r
    rw [← hline] at hlines
    exact ⟨read, _, by rw [reindent, hlines], hkept read hread⟩

/-- **Blocks are stable.** A block of code is written below whatever page with its indentation
first. What follows the indentation, taken for code that starts in its column, is laid out in the
same lines, and is written as the same text. -/
theorem Row.block_stable (layout : Layout) (level : Nat) (above : List Row) {v : Verbatim}
    (h : StartsSolid v.text.toList) :
    ∃ written, render layout (above ++ block level v) = render layout above ++
        String.ofList (List.replicate (level * layout.indentWidth.toNat) ' ' ++ written) ∧
      ∀ again : Verbatim, again.text.toList = written →
        again.column = level * layout.indentWidth.toNat →
        reindent again.column again.text.toList = reindent v.column v.text.toList ∧
        render layout (above ++ block level again) = render layout (above ++ block level v) := by
  obtain ⟨line, rest, hlines, hne⟩ := h.exists_reindent v.column
  obtain ⟨_, _, hcons, htidy⟩ := reindent_tidy v.column v.text.toList
  rw [← hcons, hlines] at htidy
  obtain ⟨hfirst, hrest⟩ := List.forall_mem_cons.mp htidy
  generalize hindent : level * layout.indentWidth.toNat = indent
  refine ⟨trim line ++ layout.lineEnd.text.toList ++ rest.flatMap fun l =>
    indentLine indent l ++ layout.lineEnd.text.toList, ?_, ?_⟩
  · rw [render_append_block, hlines, List.flatMap_cons, hindent, indentLine_of_ne_nil hne]
    simp only [List.append_assoc]
  · rintro again htext rfl
    have hagain : lines again.text.toList = trim line :: rest.map (indentLine again.column) := by
      have hmap : (rest.flatMap fun l => indentLine again.column l ++ layout.lineEnd.text.toList) =
          (rest.map (indentLine again.column)).flatMap (· ++ layout.lineEnd.text.toList) := by
        rw [List.flatMap_map]
      rw [htext, LineEnd.lines_append _ hfirst, hmap, LineEnd.lines_flatMap]
      exact List.forall_mem_map.mpr fun l hl => (hrest l hl).indentLine _
    have hsame : reindent again.column again.text.toList = reindent v.column v.text.toList := by
      have hback : ∀ l ∈ rest, relaid again.column again.column l = l :=
        fun l hl => relaid_self (hrest l hl) _
      rw [hlines, reindent, hagain]
      simp only [trim_trim, List.map_map]
      exact congrArg (trim line :: ·) ((List.map_congr_left hback).trans (List.map_id rest))
    exact ⟨hsame, by rw [render_append_block, render_append_block, hsame]⟩

/-- Tabs that reach over the column, a blank line, a carriage return inside of a line and one at its
end, and line breaks at the end of the text. -/
def gappedCode : Verbatim :=
  ⟨"\tif (x)\r\n\t\t\x7b \n  \n  \ty\rz \n\n", .nowhere, 3, []⟩

/-- What is written for it at an indentation of six, behind the indentation of its first line. -/
def gappedCodeAgain : Verbatim :=
  ⟨"if (x)\r\n      \t\x7b\r\n\r\n      y\rz\r\n\r\n", .nowhere, 6, []⟩

theorem Row.block_stable_gappedCode :
    StartsSolid gappedCode.text.toList ∧
      render ⟨3, .crlf⟩ (block 2 gappedCode) = "      " ++ gappedCodeAgain.text ∧
      reindent gappedCodeAgain.column gappedCodeAgain.text.toList =
        reindent gappedCode.column gappedCode.text.toList ∧
      render ⟨3, .crlf⟩ (block 2 gappedCodeAgain) = render ⟨3, .crlf⟩ (block 2 gappedCode) := by
  have hsolid : StartsSolid gappedCode.text.toList := ⟨'i', by decide +kernel, rfl⟩
  have hrun : render ⟨3, .crlf⟩ (block 2 gappedCode) = "      " ++ gappedCodeAgain.text := by
    decide +kernel
  obtain ⟨written, hwritten, hagain⟩ := block_stable ⟨3, .crlf⟩ 2 [] hsolid
  have htext : gappedCodeAgain.text.toList = written := by
    have hlist := congrArg String.toList (hrun.symm.trans hwritten)
    simpa [render, String.toList_append] using hlist
  exact ⟨hsolid, hrun, hagain gappedCodeAgain htext rfl⟩

end ClassSugar
