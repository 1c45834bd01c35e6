import ClassSugar.Proofs.StableBlocks

/-!
# Carriage returns

A source may end its lines with a carriage return and a line break. It is then *paired*: no carriage
return stands anywhere else (`Paired`). A page is written with line breaks only, and these are
replaced at the end if the layout says so. So the text of a page ends all its lines in the one way
that was asked for (`LineEnd.Normalized`) exactly if no row of the page has a carriage return of its
own (`Row.normalized_render_iff`).

Code that is kept as written is taken apart into lines before it gets on a page. If it is paired,
its carriage returns are gone then (`Row.areClean_verbatim`).
-/

namespace ClassSugar

open ClassSugar.Text

/-! ### Paired texts -/

/-- Each carriage return is directly followed by a line break. -/
def Paired (cs : List Char) : Prop :=
  ∀ a b, cs = a ++ '\r' :: b → b.head? = some '\n'

namespace Paired

variable {a b : List Char} {c : Char} {r : List Char}

theorem cons_iff : Paired (c :: r) ↔ (c = '\r' → r.head? = some '\n') ∧ Paired r := by
  constructor
  · refine fun h => ⟨fun hc => h [] r (by rw [hc]; rfl), fun a b heq => h (c :: a) b ?_⟩
    rw [heq, List.cons_append]
  · rintro ⟨hc, hr⟩ a b heq
    cases a with
    | nil =>
      obtain ⟨rfl, rfl⟩ := List.cons.inj heq
      exact hc rfl
    | cons d a => exact hr a b (List.cons.inj heq).2

theorem of_notMem (h : '\r' ∉ a) : Paired a := by
  rintro b d rfl
  exact absurd (List.mem_append_right b List.mem_cons_self) h

theorem nil : Paired [] :=
  of_notMem List.not_mem_nil

instance decidable : (cs : List Char) → Decidable (Paired cs)
  | [] => isTrue nil
  | _ :: r => have := decidable r; decidable_of_iff _ cons_iff.symm

theorem append (ha : Paired a) (hb : Paired b) : Paired (a ++ b) := by
  induction a with
  | nil => exact hb
  | cons c r ih =>
    obtain ⟨hc, hr⟩ := cons_iff.mp ha
    refine cons_iff.mpr ⟨fun heq => ?_, ih hr⟩
    obtain ⟨s, rfl⟩ := List.head?_eq_some_iff.mp (hc heq)
    rfl

theorem of_append_right (h : Paired (a ++ b)) : Paired b := by
  intro d s heq
  exact h (a ++ d) s (by rw [heq, List.append_assoc])

/-- The front of a paired text is paired if it is not cut between a carriage return and its line
break. -/
theorem of_append_left (h : Paired (a ++ b))
    (hcut : a.getLast? = some '\r' → b.head? ≠ some '\n') : Paired a := by
  rintro d s rfl
  have hnext := h d (s ++ b) (by rw [List.append_assoc, List.cons_append])
  cases s with
  | nil => exact absurd hnext (hcut (by simp))
  | cons e s => exact hnext

/-- In a line, only the last character can be a carriage return. -/
theorem eq_nil_of_unbroken (h : Paired (a ++ '\r' :: b ++ r)) (hb : '\n' ∉ b) : b = [] := by
  have hnext := h a (b ++ r) (by rw [List.append_assoc, List.cons_append])
  cases b with
  | nil => rfl
  | cons e s =>
    obtain rfl : e = '\n' := Option.some.inj hnext
    exact absurd List.mem_cons_self hb

end Paired

/-! ### Lines of paired texts -/

theorem notMem_dropReturn {line rest : List Char} (hline : '\n' ∉ line)
    (h : Paired (line ++ '\n' :: rest)) : '\r' ∉ (dropReturn line.reverse).reverse := by
  unfold dropReturn
  split
  · -- The line ends with a carriage return, and has no other.
    rename_i r hrev
    have hspell : line = r.reverse ++ ['\r'] := by
      rw [← List.reverse_reverse line, hrev, List.reverse_cons]
    subst hspell
    intro hmem
    obtain ⟨a, b, hab⟩ := List.append_of_mem hmem
    rw [hab, List.append_assoc a] at h hline
    have hb : b ++ ['\r'] = [] := by
      refine Paired.eq_nil_of_unbroken h fun hbreak => hline ?_
      exact List.mem_append_right a (List.mem_cons_of_mem _ hbreak)
    cases b <;> cases hb
  · rename_i hlast
    rw [List.reverse_reverse]
    intro hmem
    obtain ⟨a, b, rfl⟩ := List.append_of_mem hmem
    have hb : b = [] := by
      refine Paired.eq_nil_of_unbroken h fun hbreak => hline ?_
      exact List.mem_append_right a (List.mem_cons_of_mem _ hbreak)
    exact hlast a.reverse (by rw [hb, List.reverse_append]; rfl)

/-- No carriage return is left in a line of a paired text. -/
theorem return_notMem_lines {text : List Char} (h : Paired text) :
    ∀ line ∈ lines text, '\r' ∉ line := by
  induction hlength : text.length using Nat.strong_induction_on generalizing text with
  | _ _ ih =>
    obtain ⟨hunbroken, hline | ⟨rest, hline⟩⟩ := cases_first_line text
    · rw [← hline] at hunbroken
      have hnone : '\r' ∉ text := by
        intro hmem
        obtain ⟨a, b, rfl⟩ := List.append_of_mem hmem
        have hnext := h a b rfl
        refine hunbroken (List.mem_append_right a (List.mem_cons_of_mem _ ?_))
        exact List.mem_of_mem_head? hnext
      by_cases hnil : text = []
      · rw [hnil]
        nofun
      · rw [lines_of_unbroken hunbroken hnil]
        exact List.forall_mem_singleton.mpr hnone
    · generalize text.takeWhile (· != '\n') = line at hline hunbroken
      subst hline
      have hrest : Paired rest := (Paired.cons_iff.mp h.of_append_right).2
      rw [lines, linesAfter_append_break hunbroken, List.append_nil]
      refine List.forall_mem_cons.mpr ⟨notMem_dropReturn hunbroken h, ?_⟩
      refine ih rest.length ?_ hrest rfl
      rw [← hlength, List.length_append, List.length_cons]
      omega

theorem return_notMem_reindent {column : Nat} {text : List Char} (h : Paired text) :
    ∀ line ∈ reindent column text, '\r' ∉ line := by
  have hlines := return_notMem_lines h
  unfold reindent
  cases hall : lines text with
  | nil => exact List.forall_mem_singleton.mpr List.not_mem_nil
  | cons first rest =>
    rw [hall] at hlines
    obtain ⟨hfirst, hrest⟩ := List.forall_mem_cons.mp hlines
    refine List.forall_mem_cons.mpr ⟨fun hmem => hfirst ?_, List.forall_mem_map.mpr ?_⟩
    · exact (List.dropWhile_suffix isBlank).subset ((isPrefix_trimEnd _).subset hmem)
    · intro line hline hmem
      have hstripped := (isPrefix_trimEnd _).subset hmem
      exact hrest line hline ((stripColumns_suffix column line).subset hstripped)

/-! ### Texts without carriage returns -/

/-- The text has no carriage return. -/
def Clean (s : String) : Prop :=
  '\r' ∉ s.toList

instance (s : String) : Decidable (Clean s) :=
  inferInstanceAs (Decidable (_ ∉ _))

@[simp] theorem clean_empty : Clean "" :=
  List.not_mem_nil

@[simp] theorem clean_append {s t : String} : Clean (s ++ t) ↔ Clean s ∧ Clean t := by
  simp [Clean, String.toList_append]

@[simp] theorem clean_join {l : List String} : Clean (String.join l) ↔ ∀ s ∈ l, Clean s := by
  simp [Clean, String.toList_join]

theorem Clean.paired {s : String} (h : Clean s) : Paired s.toList :=
  .of_notMem h

theorem Paired.toList_append {s t : String} (hs : Paired s.toList) (ht : Paired t.toList) :
    Paired (s ++ t).toList := by
  rw [String.toList_append]
  exact hs.append ht

theorem clean_intercalate {separator : String} (h : Clean separator) (l : List String) :
    Clean (String.intercalate separator l) ↔ ∀ s ∈ l, Clean s := by
  induction l with
  | nil => simp
  | cons s rest ih =>
    cases rest with
    | nil => simp
    | cons t rest =>
      rw [String.intercalate_cons_cons, clean_append, clean_append, and_iff_left h, ih]
      exact List.forall_mem_cons.symm

/-! ### Pages -/

namespace LineEnd

/-- Every line of the text is ended this way, and it has no other carriage return. -/
def Normalized : LineEnd → List Char → Prop
  | .lf, text => '\r' ∉ text
  | .crlf, text => Paired text ∧ ∀ a b, text = a ++ '\n' :: b → a.getLast? = some '\r'

theorem expand_crlf_cons (c : Char) (r : List Char) :
    LineEnd.crlf.expand (c :: r) =
      (if c = '\n' then ['\r', '\n'] else [c]) ++ LineEnd.crlf.expand r :=
  List.flatMap_cons

/-- Each line break gets its carriage return. -/
theorem normalized_expand_crlf {page : List Char} (h : '\r' ∉ page) :
    Normalized .crlf (LineEnd.crlf.expand page) := by
  induction page with
  | nil => exact ⟨.nil, fun a b heq => nomatch (List.append_eq_nil_iff.mp heq.symm).2⟩
  | cons c r ih =>
    obtain ⟨hc, hr⟩ := not_or.mp (mt List.mem_cons.mpr h)
    obtain ⟨hpaired, hbreaks⟩ := ih hr
    rw [expand_crlf_cons]
    split
    · refine ⟨Paired.append ?_ hpaired, fun a b heq => ?_⟩
      · exact Paired.cons_iff.mpr ⟨fun _ => rfl, Paired.of_notMem (by decide)⟩
      · rcases a with _ | ⟨d, _ | ⟨e, a⟩⟩
        · cases heq
        · obtain ⟨rfl, -⟩ := List.cons.inj heq
          rfl
        · have hrest := hbreaks a b (List.cons.inj (List.cons.inj heq).2).2
          rw [List.getLast?_cons_cons, List.getLast?_cons, hrest]
          rfl
    · rename_i hbreak
      refine ⟨Paired.cons_iff.mpr ⟨fun heq => absurd heq.symm hc, hpaired⟩, fun a b heq => ?_⟩
      cases a with
      | nil => exact absurd (List.cons.inj heq).1 hbreak
      | cons d a =>
        rw [List.getLast?_cons, hbreaks a b (List.cons.inj heq).2]
        rfl

/-- **A page is written with its line ends, and no other carriage returns, exactly if it had none
before.** -/
theorem normalized_expand_iff (e : LineEnd) (page : List Char) :
    e.Normalized (e.expand page) ↔ '\r' ∉ page := by
  cases e with
  | lf => exact Iff.rfl
  | crlf =>
    refine ⟨fun h hmem => ?_, normalized_expand_crlf⟩
    -- A carriage return of the page is not followed by a line break any more.
    obtain ⟨a, b, rfl⟩ := List.append_of_mem hmem
    have hnext := h.1 (LineEnd.crlf.expand a) (LineEnd.crlf.expand b) (expand_append .crlf a _)
    cases b with
    | nil => cases hnext
    | cons c r =>
      rw [expand_crlf_cons] at hnext
      split at hnext
      · exact absurd (Option.some.inj hnext) (by decide)
      · exact absurd (Option.some.inj hnext) ‹_›

end LineEnd

namespace Row

/-- The characters that a row brings along. -/
def chars : Row → List Char
  | .line _ text => text.toList
  | .gap => []

/-- No row has a carriage return. -/
def AreClean (rows : List Row) : Prop :=
  ∀ row ∈ rows, '\r' ∉ row.chars

theorem return_mem_write {width : Nat} {page : List Char} {row : Row} :
    '\r' ∈ write width page row ↔ '\r' ∈ row.chars ∨ '\r' ∈ page := by
  cases row with
  | line level text => simp [write, chars]
  | gap =>
    simp only [write]
    split <;> simp [chars]

theorem return_mem_foldl_write {width : Nat} {page : List Char} (rows : List Row) :
    '\r' ∈ rows.foldl (write width) page ↔ (∃ row ∈ rows, '\r' ∈ row.chars) ∨ '\r' ∈ page := by
  induction rows generalizing page with
  | nil => simp
  | cons row rest ih =>
    rw [List.foldl_cons, ih, return_mem_write, List.exists_mem_cons_iff]
    exact or_left_comm.trans or_assoc.symm

/-- **The lines of a page are ended as the layout says exactly if its rows are clean.** -/
theorem normalized_render_iff (layout : Layout) (rows : List Row) :
    layout.lineEnd.Normalized (render layout rows).toList ↔ AreClean rows := by
  rw [render_eq, String.toList_ofList, LineEnd.normalized_expand_iff, List.mem_reverse,
    return_mem_foldl_write]
  simp [AreClean]

@[simp] theorem areClean_nil : AreClean [] :=
  nofun

@[simp] theorem areClean_cons {row : Row} {rows : List Row} :
    AreClean (row :: rows) ↔ '\r' ∉ row.chars ∧ AreClean rows :=
  List.forall_mem_cons

@[simp] theorem areClean_append {rows more : List Row} :
    AreClean (rows ++ more) ↔ AreClean rows ∧ AreClean more :=
  List.forall_mem_append

@[simp] theorem areClean_map {α : Type} {f : α → Row} {l : List α} :
    AreClean (l.map f) ↔ ∀ a ∈ l, '\r' ∉ (f a).chars :=
  List.forall_mem_map

@[simp] theorem areClean_text {s : String} : AreClean (text s) ↔ Clean s := by
  simp [text, chars, Clean]

@[simp] theorem areClean_indented {rows : List Row} : AreClean (indented rows) ↔ AreClean rows := by
  have hdeeper : ∀ row : Row, row.deeper.chars = row.chars := fun row => by cases row <;> rfl
  simp [indented, hdeeper, AreClean]

theorem areClean_between {before after : String} {ls : List String} (hne : ls ≠ []) :
    AreClean (between before after ls) ↔ Clean before ∧ Clean after ∧ ∀ s ∈ ls, Clean s := by
  induction ls generalizing before with
  | nil => exact absurd rfl hne
  | cons s rest ih =>
    cases rest with
    | nil =>
      rw [between, areClean_cons, chars, and_iff_left areClean_nil]
      change Clean (before ++ s ++ after) ↔ _
      simp only [clean_append, List.forall_mem_singleton]
      tauto
    | cons t rest =>
      rw [between, areClean_cons, chars, ih (List.cons_ne_nil t rest)]
      · change Clean (before ++ s) ∧ _ ↔ _
        simp only [clean_append, clean_empty, true_and, List.forall_mem_cons]
        tauto
      · rintro heq
        cases heq

/-- **Paired code is clean on its rows**, whatever is written around it. -/
theorem areClean_verbatim {v : Verbatim} (h : Paired v.text.toList) {before after : String} :
    AreClean (verbatim before v after) ↔ Clean before ∧ Clean after := by
  have hne : (reindent v.column v.text.toList).map String.ofList ≠ [] := by
    obtain ⟨first, rest, hlines, -⟩ := reindent_tidy v.column v.text.toList
    rw [hlines]
    exact List.cons_ne_nil _ _
  have hlines : ∀ s ∈ (reindent v.column v.text.toList).map String.ofList, Clean s := by
    refine List.forall_mem_map.mpr fun line hline => ?_
    rw [Clean, String.toList_ofList]
    exact return_notMem_reindent h line hline
  rw [verbatim, areClean_between hne, and_iff_left hlines]

end Row

end ClassSugar
