import ClassSugar.Source.Place

/-!
# Slices of a source

A span stands for the text of a source between its ends. Not every pair of numbers does: the ends have
to be in order and inside of the source, and each of them between two characters (`Span.Within`). To
ask for the text at any other span is a failure (`Span.slice?`).
-/

namespace ClassSugar.Span

/-- The text of a source at a span, where the first byte of the source has offset `base`. -/
def textIn (s : Span) (source : String) (base : Nat) : String :=
  String.Pos.Raw.extract source ⟨s.lo - base⟩ ⟨s.hi - base⟩

/-- A span lies in a source: its ends are in order, and each stands between two characters or at an
end of the source. -/
structure Within (s : Span) (source : String) (base : Nat) : Prop where
  base_le_lo : base ≤ s.lo
  lo_le_hi : s.lo ≤ s.hi
  isValid_lo : String.Pos.Raw.IsValid source ⟨s.lo - base⟩
  isValid_hi : String.Pos.Raw.IsValid source ⟨s.hi - base⟩

instance (s : Span) (source : String) (base : Nat) : Decidable (s.Within source base) :=
  decidable_of_iff
    (base ≤ s.lo ∧ s.lo ≤ s.hi ∧ String.Pos.Raw.IsValid source ⟨s.lo - base⟩ ∧
      String.Pos.Raw.IsValid source ⟨s.hi - base⟩)
    ⟨fun ⟨hbase, horder, hlo, hhi⟩ => ⟨hbase, horder, hlo, hhi⟩,
      fun h => ⟨h.base_le_lo, h.lo_le_hi, h.isValid_lo, h.isValid_hi⟩⟩

/-- The text at a span that lies in the source. -/
def slice? (s : Span) (source : String) (base : Nat) : Option String :=
  if s.Within source base then some (s.textIn source base) else none

end ClassSugar.Span
