import ClassSugar.Proofs.ComposedScans

/-!
# A renaming copies everything else

A renaming is one scan over a text. It goes through code, through literals with their escapes and
doubled quotes, and through holes, which are cut out first and scanned by themselves. On each of
these ways every character has to be handed on, once and in its place.

This is so for every text, also where a literal or a hole is never closed: the result is the text
with the new word at some of the places where the old one stands (`alike_apply`). One step of the
scanner takes a word, a hole or two characters at once, so the proofs are by induction on the length
of the text, with one case for each step in code (`codeStep`) and in a literal (`literalStep`).
-/

namespace ClassSugar.Renaming

variable {old new : String}

/-- The scanner hands the text on, whether it is in code or in a literal and whatever it has written
before. -/
structure HandsOn (old new : String) (cs : List Char) : Prop where
  code : ∀ w, ∃ s, code (single old new) w cs = s.reverse ++ w ∧ Alike old.toList new.toList s cs
  literal : ∀ (quote : Quote) (marks : Marks) (w : List Char),
    ∃ s, literal (single old new) quote.mark marks w cs = s.reverse ++ w ∧
      Alike old.toList new.toList s cs

section Step

variable {cs : List Char} (ih : ∀ ds : List Char, ds.length < cs.length → HandsOn old new ds)
include ih

theorem code_handsOn (w : List Char) :
    ∃ s, code (single old new) w cs = s.reverse ++ w ∧ Alike old.toList new.toList s cs := by
  cases codeStep cs with
  | stop => exact ⟨[], by rw [code.eq_def]; rfl, .nil⟩
  | quote quote r =>
    obtain ⟨s, hs, hrest⟩ := (ih r (by simp)).literal quote (quote.marksAfter w) (quote.mark :: w)
    refine ⟨quote.mark :: s, ?_, .cons _ hrest⟩
    rw [code_quote, hs, List.reverse_cons, List.append_assoc]
    rfl
  | @plain c hc r =>
    obtain ⟨s, hs, hrest⟩ := (ih r (by simp)).code (c :: w)
    refine ⟨c :: s, ?_, .cons c hrest⟩
    rw [code_plain hc, hs, List.reverse_cons, List.append_assoc]
    rfl
  | @word u b hu hb =>
    -- The word or its image is written: the name of a member is copied in any case.
    obtain ⟨image, himage, hword⟩ := exists_code_of_word hu.ne_nil hu.parts hb
    obtain ⟨s, hs, hrest⟩ := (ih b (length_lt_append hu.ne_nil b)).code (image.reverse ++ w)
    refine ⟨image ++ s, by rw [hword, hs, List.reverse_append, List.append_assoc], ?_⟩
    rcases himage with rfl | ⟨rfl, rfl⟩
    · exact hrest.append_left image
    · exact .word hrest

theorem literal_handsOn (quote : Quote) (marks : Marks) (w : List Char) :
    ∃ s, literal (single old new) quote.mark marks w cs = s.reverse ++ w ∧
      Alike old.toList new.toList s cs := by
  cases literalStep quote marks cs with
  | stop h => exact ⟨cs, h _ w, .refl cs⟩
  | @copy x r hx h =>
    obtain ⟨s, hs, hrest⟩ := (ih r (length_lt_append hx r)).literal quote marks (x.reverse ++ w)
    refine ⟨x ++ s, ?_, hrest.append_left x⟩
    rw [h, hs, List.reverse_append, List.append_assoc]
  | @hole r hinterpolated hr =>
    -- The hole is code and is scanned by itself; behind it the literal goes on.
    have hlength := length_hole 0 r
    obtain ⟨s₁, hs₁, hcode⟩ := (ih (hole 0 r).code (by grind)).code []
    obtain ⟨s₂, hs₂, hrest⟩ := (ih (hole 0 r).rest (by grind)).literal quote marks
      ((hole 0 r).close ++ (code _ [] (hole 0 r).code ++ '\x7b' :: w))
    have hhole := hcode.append (hrest.append_left (hole 0 r).close)
    rw [append_hole] at hhole
    refine ⟨'\x7b' :: (s₁ ++ ((hole 0 r).close ++ s₂)), ?_, .cons _ hhole⟩
    rw [literal_hole quote hinterpolated hr, hs₂, hs₁]
    simp [Hole.reverse_close]
  | @close r hr =>
    obtain ⟨s, hs, hrest⟩ := (ih r (by simp)).code (quote.mark :: w)
    refine ⟨quote.mark :: s, ?_, .cons _ hrest⟩
    rw [literal_close quote hr, hs, List.reverse_cons, List.append_assoc]
    rfl

end Step

theorem handsOn (old new : String) (cs : List Char) : HandsOn old new cs := by
  induction hn : cs.length using Nat.strong_induction_on generalizing cs with
  | _ n ih =>
    have hshorter : ∀ ds : List Char, ds.length < cs.length → HandsOn old new ds :=
      fun ds hds => ih ds.length (hn ▸ hds) ds rfl
    exact ⟨code_handsOn hshorter, literal_handsOn hshorter⟩

theorem alike_apply (old new text : String) :
    Alike old.toList new.toList (apply (single old new) text).toList text.toList := by
  obtain ⟨s, hs, halike⟩ := (handsOn old new text.toList).code []
  unfold apply
  rw [hs, List.append_nil, List.reverse_reverse, String.toList_ofList]
  exact halike

/-- Where a word is put in its own place nothing changes. -/
theorem Alike.eq_of_same {x a' a : List Char} (h : Alike x x a' a) : a' = a := by
  induction h with
  | nil => rfl
  | cons c h ih => rw [ih]
  | word h ih => rw [ih]

theorem apply_of_fixed {f : List Char → List Char} (hf : ∀ u, f u = u) (text : String) :
    apply f text = text := by
  have hsingle : f = single "" "" := by
    funext u
    unfold single
    split
    · next hu => rw [hf, hu]
    · exact hf u
  rw [hsingle]
  exact String.toList_inj.mp (alike_apply "" "" text).eq_of_same

/-- A word at the start of a text is replaced. -/
theorem isPrefix_apply {old text : String} (hold : IsWord old.toList)
    (htext : ∀ c, text.toList.head? = some c → isWordPart c = false) (new : String) :
    new.toList <+: (apply (single old new) (old ++ text)).toList := by
  obtain ⟨s, hs, -⟩ := (handsOn old new text.toList).code (new.toList.reverse ++ [])
  have hword : single old new old.toList = new.toList := if_pos rfl
  have hdot : ¬endsWithDot [] = true := Bool.false_ne_true
  unfold apply
  rw [String.toList_append, code_append_word hold htext, if_neg hdot, hword, hs]
  simp

/-- **Renaming copies everything else.** To rename a word to itself leaves every text as it is. To
rename it to another puts that one at some of the places where the word stands, as at the start of a
text, and changes nothing besides. The text need not be code: its literals and holes may be left
open. -/
theorem renaming_copies_rest (text x : String) :
    apply (single x x) text = text ∧ ∀ y : String,
      Alike x.toList y.toList (apply (single x y) text).toList text.toList ∧
      (IsWord x.toList → (∀ c, text.toList.head? = some c → isWordPart c = false) →
        y.toList <+: (apply (single x y) (x ++ text)).toList) := by
  refine ⟨String.toList_inj.mp (alike_apply x x text).eq_of_same, fun y => ?_⟩
  exact ⟨alike_apply x y text, fun hx htext => isPrefix_apply hx htext y⟩

theorem renaming_copies_rest_member :
    IsWord "x".toList ∧ (∀ c, ".x".toList.head? = some c → isWordPart c = false) ∧
      "y".toList <+: (apply (single "x" "y") ("x" ++ ".x")).toList := by
  have hx : IsWord "x".toList := ⟨by decide, List.all_eq_true.mp (by decide)⟩
  have hdot : ∀ c, ".x".toList.head? = some c → isWordPart c = false := by
    rintro _ ⟨⟩
    decide
  exact ⟨hx, hdot, ((renaming_copies_rest ".x" "x").2 "y").2 hx hdot⟩

/-- The hole is never closed, and neither is the literal in it. -/
example : apply (single "x" "y") "x.x + $@\"\"\"x\x7b\x7bx\x7bx + 'x" =
    "y.x + $@\"\"\"x\x7b\x7bx\x7by + 'x" := by
  decide +kernel

end ClassSugar.Renaming
