import ClassSugar.Tree.Query

/-!
# Names that are free

Code that is written anew needs names that nothing else has. A name is chosen from an endless list
of candidates, and the first one that is not taken is used (`firstFree_spec`). Each candidate that
is taken is struck off the list of taken names, which is why the search ends.

The constructor parameter behind a shorthand property has the property's name with its first letter
lowered. If another parameter has that name already, `Value` is appended as often as needed.
-/

namespace ClassSugar

/-- The first candidate, from the `n`th on, that is not taken. -/
def firstFree (candidate : Nat → String) (taken : List String) (n : Nat) : String :=
  let name := candidate n
  if name ∈ taken then firstFree candidate (taken.erase name) (n + 1) else name
termination_by taken.length
decreasing_by
  have hmem : candidate n ∈ taken := by assumption
  have := List.length_erase_of_mem hmem
  have := List.length_pos_of_mem hmem
  omega

/-- **The search finds the first free candidate**: every earlier candidate is taken. -/
theorem firstFree_spec {candidate : Nat → String}
    (hinj : ∀ i j, candidate i = candidate j → i = j) (taken : List String) (n : Nat) :
    ∃ m, n ≤ m ∧ firstFree candidate taken n = candidate m ∧ candidate m ∉ taken ∧
      ∀ k, n ≤ k → k < m → candidate k ∈ taken := by
  fun_induction firstFree candidate taken n with
  | case1 taken n name hmem ih =>
    obtain ⟨m, hle, heq, hfree, hearlier⟩ := ih
    have hne : candidate m ≠ candidate n := fun h => by
      have := hinj m n h
      omega
    refine ⟨m, by omega, heq, fun h => hfree ((List.mem_erase_of_ne hne).mpr h), ?_⟩
    intro k hk hkm
    by_cases h : k = n
    · exact h ▸ hmem
    · exact List.mem_of_mem_erase (hearlier k (by omega) hkm)
  | case2 taken n name hfree => exact ⟨n, Nat.le_refl n, rfl, hfree, fun k hk hkn => by omega⟩

/-- The names considered for a constructor parameter that would best be called `name`. -/
def parameterCandidate (name : String) : Nat → String
  | 0 => name
  | n + 1 => parameterCandidate name n ++ "Value"

/-- Gives the primary parameter at a position the name of a constructor parameter. -/
def Declaration.nameParameter (d : Declaration) (names : List String) (i : Nat) : List String :=
  match d.primaryParams[i]? with
  | some p => names.set i (firstFree (parameterCandidate (Identifier.camelCase p.name)) names 0)
  | none => names

/-- The primary parameters as the constructor spells them: those at the positions `shorthand` get
the name of a constructor parameter, one after the other, and all others keep their names. -/
def Declaration.constructorParamNames (d : Declaration) (shorthand : List Nat) : List String :=
  shorthand.foldl d.nameParameter (d.primaryParams.map Parameter.name)

/-- The names considered for the field that holds the instance of a singleton. -/
def holderCandidate : Nat → String
  | 0 => "_lazyInstance"
  | n + 1 => "_lazyInstance" ++ toString (n + 1)

/-- The name of the field that holds the instance of a singleton. -/
def Declaration.holderName (d : Declaration) : String :=
  firstFree holderCandidate (d.members.filterMap Member.name?) 0

end ClassSugar
