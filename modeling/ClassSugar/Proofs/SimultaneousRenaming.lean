import ClassSugar.Proofs.CopiedCode
import ClassSugar.Proofs.ParameterNames
import ClassSugar.Proofs.RenamedTokens

/-!
# Parameters are renamed all at once

The arguments of a base class are written with the names that the parameters have in the header. In
the constructor some of these are spelled differently, and they are replaced one after the other, in
the order of the parameters. A name that was put in for one parameter could be taken for the name of
a later one. It never is: a name is free when it is given, and the parameters whose turn has not come
still stand in the list of names that are taken (`Context.fresh_renamedParams`). So the
replacements one after the other are a single replacement (`sequential_renaming_simultaneous`).
-/

namespace ClassSugar

namespace Renaming

/-- All words are replaced at once. If one is given several replacements, the first counts. -/
def simultaneous (pairs : List (String × String)) (word : List Char) : List Char :=
  match pairs.find? fun p => p.1.toList == word with
  | some p => p.2.toList
  | none => word

/-- Words are replaced one after the other. -/
def successive (pairs : List (String × String)) (word : List Char) : List Char :=
  pairs.foldl (fun word p => single p.1 p.2 word) word

/-- No word that is put in by a pair is replaced by a later one. -/
def Fresh (pairs : List (String × String)) : Prop :=
  pairs.Pairwise fun p q => p.2 ≠ q.1

theorem successive_of_forall_ne {pairs : List (String × String)} {word : List Char}
    (h : ∀ p ∈ pairs, p.1.toList ≠ word) : successive pairs word = word := by
  induction pairs with
  | nil => rfl
  | cons p pairs ih =>
    obtain ⟨hp, hpairs⟩ := List.forall_mem_cons.mp h
    have hsingle : single p.1 p.2 word = word := if_neg (Ne.symm hp)
    unfold successive at ih ⊢
    rw [List.foldl_cons, hsingle, ih hpairs]

theorem successive_eq_simultaneous {pairs : List (String × String)} (h : Fresh pairs)
    (word : List Char) : successive pairs word = simultaneous pairs word := by
  induction pairs with
  | nil => rfl
  | cons p pairs ih =>
    obtain ⟨hfresh, hpairs⟩ := List.pairwise_cons.mp h
    have hstep : successive (p :: pairs) word = successive pairs (single p.1 p.2 word) := rfl
    unfold simultaneous
    by_cases hp : p.1.toList = word
    · -- What is put in stays.
      have hsingle : single p.1 p.2 word = p.2.toList := if_pos hp.symm
      have hlater : ∀ q ∈ pairs, q.1.toList ≠ p.2.toList := fun q hq heq =>
        hfresh q hq (String.toList_inj.mp heq.symm)
      rw [hstep, hsingle, successive_of_forall_ne hlater, List.find?_cons, beq_iff_eq.mpr hp]
    · have hsingle : single p.1 p.2 word = word := if_neg (Ne.symm hp)
      rw [hstep, hsingle, ih hpairs, List.find?_cons, beq_eq_false_iff_ne.mpr hp]
      rfl

/-- Scans one after the other are one scan. -/
theorem foldl_apply {pairs : List (String × String)}
    (h : ∀ p ∈ pairs, IsName p.1.toList ∧ IsName p.2.toList) (text : String) :
    KeepsShape (successive pairs) ∧
      pairs.foldl (fun text p => apply (single p.1 p.2) text) text =
        apply (successive pairs) text := by
  induction pairs generalizing text with
  | nil => exact ⟨.of_fixed fun _ => rfl, (apply_of_fixed (fun _ => rfl) text).symm⟩
  | cons p pairs ih =>
    obtain ⟨⟨hold, hnew⟩, hpairs⟩ := List.forall_mem_cons.mp h
    obtain ⟨hshape, hfold⟩ := ih hpairs (apply (single p.1 p.2) text)
    have hfirst : KeepsShape (single p.1 p.2) := .single hold hnew
    exact ⟨hshape.comp hfirst, hfold.trans (apply_comp hfirst hshape text)⟩

end Renaming

open Renaming

namespace Context

/-- **No replacement is replaced again.** -/
theorem fresh_renamedParams {o : Options} {importsSystem : Bool} {d : Declaration} {c : Context}
    (hc : Context.of o importsSystem d = c) : Fresh c.renamedParams := by
  have hdeclaration : c.declaration = d := hc ▸ rfl
  -- A parameter that is renamed has a name that was free at its turn.
  have hzip : ((c.declaration.primaryParams.map Parameter.name).zip c.paramNames).Pairwise
      fun p q => p.1 ≠ p.2 → p.2 ≠ q.1 := by
    rw [List.pairwise_iff_getElem, hdeclaration]
    intro i j hi hj hij
    simp only [List.length_zip, List.length_map, lt_min_iff] at hi hj
    simp only [List.getElem_zip, List.getElem_map]
    have hp : d.primaryParams[i]? = some d.primaryParams[i] := List.getElem?_eq_getElem hi.1
    have hq : d.primaryParams[j]? = some d.primaryParams[j] := List.getElem?_eq_getElem hj.1
    have hname : c.paramNames[i]? = some c.paramNames[i] := List.getElem?_eq_getElem hi.2
    intro hrenamed hagain
    cases hshorthand : c.isShorthand d.primaryParams[i] with
    | false =>
      rw [getElem?_paramNames_of_kept hc hp hshorthand] at hname
      exact hrenamed (Option.some.inj hname)
    | true =>
      obtain ⟨k, hturns, hfound⟩ := exists_turns_paramNames hc hp hshorthand
      have hgiven := Option.some.inj (hfound.symm.trans hname)
      refine hturns.free ?_
      rw [hgiven, hagain]
      exact name_mem_namesBefore hc hq (Nat.le_of_lt hij)
  refine (hzip.filter _).imp_of_mem fun hp _ h => h ?_
  simpa using (List.mem_filter.mp hp).2

end Context

/-- **Sequential renaming is simultaneous renaming.** Let the primary parameters of a declaration that
is recognized be identifiers, in the header and in the constructor. Then renaming them in a text one
after the other, in their order, gives what a single scan gives that renames them all at once, and no
name that was put in is renamed again. -/
theorem sequential_renaming_simultaneous {o : Options} {importsSystem : Bool} {d : Declaration}
    {r : Recognition} (hr : d.recognize o = .ok r)
    (hold : ∀ p ∈ d.primaryParams, IsIdentifier p.name)
    (hnew : ∀ name ∈ Context.paramNames ⟨d, r, o, importsSystem⟩, IsIdentifier name)
    (text : String) :
    let c : Context := ⟨d, r, o, importsSystem⟩
    c.renamed text = apply (simultaneous c.renamedParams) text ∧ Fresh c.renamedParams := by
  obtain rfl := Declaration.recognition_of_recognize hr
  intro c
  have hfresh : Fresh c.renamedParams := Context.fresh_renamedParams (d := d) rfl
  refine ⟨?_, hfresh⟩
  have hnames : ∀ p ∈ c.renamedParams, IsName p.1.toList ∧ IsName p.2.toList := by
    intro p hp
    obtain ⟨hfirst, hsecond⟩ := List.of_mem_zip (List.mem_filter.mp hp).1
    obtain ⟨q, hq, hname⟩ := List.mem_map.mp hfirst
    exact ⟨isIdentifier_iff.mp (hname ▸ hold q hq), isIdentifier_iff.mp (hnew _ hsecond)⟩
  calc c.renamed text = apply (successive c.renamedParams) text := (foldl_apply hnames text).2
    _ = apply (simultaneous c.renamedParams) text :=
      congrArg (apply · text) (funext (successive_eq_simultaneous hfresh))

/-- Arguments with the parameters of `boldLetters`, in holes and outside. -/
def boldArguments : String :=
  "$\"\x7b𝐀\x7d: \x7b𝐀Value\x7d\", 𝐀 + x.𝐀Value"

/-- The name that is given to the second parameter is the old name of the first. -/
theorem sequential_renaming_simultaneous_boldLetters :
    ∃ r, boldLetters.recognize {} = .ok r ∧
      (∀ p ∈ boldLetters.primaryParams, IsIdentifier p.name) ∧
      (∀ name ∈ Context.paramNames ⟨boldLetters, r, {}, true⟩, IsIdentifier name) ∧
      Context.renamedParams ⟨boldLetters, r, {}, true⟩ =
        [("𝐀Value", "𝐀ValueValue"), ("𝐀", "𝐀Value")] ∧
      Fresh [("𝐀Value", "𝐀ValueValue"), ("𝐀", "𝐀Value")] ∧
      apply (simultaneous [("𝐀Value", "𝐀ValueValue"), ("𝐀", "𝐀Value")]) boldArguments =
        "$\"\x7b𝐀Value\x7d: \x7b𝐀ValueValue\x7d\", 𝐀Value + x.𝐀Value" := by
  have hr : boldLetters.recognize {} = .ok (boldLetters.recognition {}) := rfl
  have hpairs : Context.renamedParams ⟨boldLetters, boldLetters.recognition {}, {}, true⟩ =
      [("𝐀Value", "𝐀ValueValue"), ("𝐀", "𝐀Value")] := by decide +kernel
  have hnames : Context.paramNames ⟨boldLetters, boldLetters.recognition {}, {}, true⟩ =
      ["𝐀ValueValue", "𝐀Value"] := by decide +kernel
  have hrenamed : Context.renamed ⟨boldLetters, boldLetters.recognition {}, {}, true⟩ boldArguments =
      "$\"\x7b𝐀Value\x7d: \x7b𝐀ValueValue\x7d\", 𝐀Value + x.𝐀Value" := by decide +kernel
  have hold : ∀ p ∈ boldLetters.primaryParams, IsIdentifier p.name := by
    have hall : ∀ p ∈ boldLetters.primaryParams, IsName p.name.toList := by decide +kernel
    exact fun p hp => isIdentifier_iff.mpr (hall p hp)
  have hnew : ∀ name ∈ Context.paramNames ⟨boldLetters, boldLetters.recognition {}, {}, true⟩,
      IsIdentifier name := by
    have hall : ∀ name ∈ ["𝐀ValueValue", "𝐀Value"], IsName name.toList := by decide +kernel
    rw [hnames]
    exact fun name hname => isIdentifier_iff.mpr (hall name hname)
  obtain ⟨hsame, hfresh⟩ := sequential_renaming_simultaneous hr hold hnew boldArguments
  rw [hpairs] at hsame hfresh
  exact ⟨_, hr, hold, hnew, hpairs, hfresh, hsame.symm.trans hrenamed⟩

end ClassSugar
