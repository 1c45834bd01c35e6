import ClassSugar.Source.Slice
import ClassSugar.Token.Basic
import Mathlib.Data.String.Basic

/-!
# The text of a source at a span

A span is a pair of byte offsets; `Span.textIn` is the text between them. Whether the two offsets
fall between characters at all is a question of its own (`Span.Within`).

Proofs do not count bytes. They cut the characters of a source in three, and say that a span runs
over the part in the middle (`Span.Covers`). That settles both questions, and two spans that meet
cover together what each of them covers (`Span.Covers.join`).
-/

namespace ClassSugar

/-- What is computed of a result is evidence that there is one. -/
theorem exists_ok_of_map {ε α β : Type} {x : Except ε α} {f : α → β} {b : β}
    (h : x.toOption.map f = some b) : ∃ a, x = .ok a ∧ f a = b := by
  cases x with
  | error e => cases h
  | ok a => exact ⟨a, rfl, Option.some.inj h⟩

/-- A span runs over a text of the source: over `text`, where something stands before it and
something after it. -/
def Span.Covers (s : Span) (source : String) (base : Nat) (text : List Char) : Prop :=
  ∃ before after, source.toList = before ++ text ++ after ∧
    s.lo = base + String.utf8Len before ∧ s.hi = base + String.utf8Len (before ++ text)

/-- Advancing adds the bytes of a text to the offset. -/
@[simp] theorem Place.offset_advance (p : Place) (cs : List Char) :
    (p.advance cs).offset = p.offset + String.utf8Len cs := by
  induction cs generalizing p with
  | nil => rfl
  | cons c cs ih =>
    rw [Place.advance_cons, ih, String.utf8Len_cons]
    change p.offset + c.utf8Size + _ = _
    omega

/-- Two beginnings of a text with equally many bytes are the same. -/
theorem eq_of_utf8Len_eq {before before' after after' : List Char}
    (h : before ++ after = before' ++ after')
    (hlen : String.utf8Len before = String.utf8Len before') : before = before' := by
  have hprefix : before <+: before' ++ after' := ⟨after, h⟩
  rcases List.prefix_or_prefix_of_prefix hprefix (List.prefix_append before' after') with
    ⟨more, hmore⟩ | ⟨more, hmore⟩
  · rw [← hmore, String.utf8Len_append] at hlen
    have hnil : more = [] := String.utf8Len_eq_zero.mp (by omega)
    rw [← hmore, hnil, List.append_nil]
  · rw [← hmore, String.utf8Len_append] at hlen
    have hnil : more = [] := String.utf8Len_eq_zero.mp (by omega)
    rw [← hmore, hnil, List.append_nil]

namespace Span.Covers

variable {source : String} {base : Nat} {s : Span} {text : List Char}

/-- A span that advancing over a text passes covers the text. -/
theorem advance {before after : List Char} (h : source.toList = before ++ text ++ after) :
    Covers ⟨((Place.start base).advance before).offset,
      ((Place.start base).advance (before ++ text)).offset⟩ source base text :=
  ⟨before, after, h, Place.offset_advance _ _, Place.offset_advance _ _⟩

/-- What stands between the end of a span and a place further on. -/
theorem between {before here after : List Char} (hhere : before ++ text = here)
    (hsource : source.toList = here ++ after)
    (hend : s.hi = ((Place.start base).advance before).offset) :
    Covers ⟨s.hi, ((Place.start base).advance here).offset⟩ source base text := by
  subst hhere
  rw [hend]
  exact .advance hsource

/-- The text at a span is the one that it covers. -/
theorem textIn_eq (h : s.Covers source base text) : s.textIn source base = String.ofList text := by
  obtain ⟨before, after, hsource, hlo, hhi⟩ := h
  have hlist : source = String.ofList (before ++ text ++ after) := by
    rw [← hsource, String.ofList_toList]
  rw [Span.textIn, hlo, hhi, Nat.add_sub_cancel_left, Nat.add_sub_cancel_left, hlist,
    String.utf8Len_append]
  exact String.extract_of_valid before text after

theorem isValid_of_append {before after : List Char} (h : source.toList = before ++ after) :
    String.Pos.Raw.IsValid source ⟨base + String.utf8Len before - base⟩ := by
  refine String.Pos.Raw.isValid_iff_exists_append.mpr
    ⟨String.ofList before, String.ofList after, ?_, ?_⟩
  · rw [← String.ofList_append, ← h, String.ofList_toList]
  · rw [Nat.add_sub_cancel_left, String.rawEndPos_ofList]

/-- A span that covers a text lies in the source. -/
theorem within (h : s.Covers source base text) : s.Within source base := by
  obtain ⟨before, after, hsource, hlo, hhi⟩ := h
  have hlen := String.utf8Len_append before text
  refine ⟨by omega, by omega, ?_, ?_⟩
  · rw [hlo]
    exact isValid_of_append (hsource.trans (List.append_assoc _ _ _))
  · rw [hhi]
    exact isValid_of_append hsource

/-- Only the empty text takes no room. -/
theorem lo_lt_hi (h : s.Covers source base text) (hne : text ≠ []) : s.lo < s.hi := by
  obtain ⟨before, after, -, hlo, hhi⟩ := h
  have hlen := String.utf8Len_append before text
  have hpos : String.utf8Len text ≠ 0 := fun hzero => hne (String.utf8Len_eq_zero.mp hzero)
  omega

/-- **Spans that meet.** Where the first ends and the second starts the source is cut once. -/
theorem join {s' : Span} {text' : List Char} (h : s.Covers source base text)
    (h' : s'.Covers source base text') (hmeet : s.hi = s'.lo) :
    Covers ⟨s.lo, s'.hi⟩ source base (text ++ text') := by
  obtain ⟨before, after, hsource, hlo, hhi⟩ := h
  obtain ⟨before', after', hsource', hlo', hhi'⟩ := h'
  have hsame : before ++ text ++ after = before' ++ (text' ++ after') := by
    rw [← hsource, hsource', List.append_assoc]
  have hcut : before ++ text = before' := eq_of_utf8Len_eq hsame (by omega)
  refine ⟨before, after', ?_, hlo, ?_⟩
  · rw [hsource', ← hcut]
    simp only [List.append_assoc]
  · rw [hhi', ← hcut, List.append_assoc]

end Span.Covers

end ClassSugar
