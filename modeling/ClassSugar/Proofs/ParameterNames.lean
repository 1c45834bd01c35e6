import ClassSugar.Proofs.ConstructorBodies
import Mathlib.Data.List.Nodup
import Mathlib.Data.List.Perm.Subperm

/-!
# The names of constructor parameters

A primary parameter that declares a property leaves its name to the property. The constructor spells
it with a small first letter, and appends `Value` as long as the name is taken. What is taken is
looked up in one list of names that changes on the way: parameters whose turn has come stand in it
under their new names, all others under their old ones (`Context.namesBefore`).

* `constructor_parameters_named` — the search ends for each parameter, after no more turns than there
  are parameters, and the names in the constructor are as different from each other as the names in
  the header.
* `property_shadowed_iff` — a property is assigned by its bare name, which reaches the property only if
  no constructor parameter has that name. A name is free again once its parameter has got a new one.
  So it may be given to a later parameter, if that one still starts with a capital: there are capital
  letters without a small form, such as the mathematical ones.
-/

namespace ClassSugar

open Identifier

/-! ### The search for a name -/

/-- The search for a name ends after `k` turns: the candidates before the `k`th are taken, and that
one is not. -/
structure Turns (taken : List String) (name : String) (k : Nat) : Prop where
  passed : ∀ j < k, parameterCandidate name j ∈ taken
  free : parameterCandidate name k ∉ taken

theorem parameterCandidate_eq (name : String) (k : Nat) :
    parameterCandidate name k = name ++ String.join (List.replicate k "Value") := by
  induction k with
  | zero => exact (String.append_empty).symm
  | succ k ih =>
    rw [parameterCandidate, ih, String.append_assoc, List.replicate_succ']
    simp [String.join_append]

theorem parameterCandidate_injective (name : String) :
    ∀ i j, parameterCandidate name i = parameterCandidate name j → i = j := by
  have hlength : ∀ k, (parameterCandidate name k).length = name.length + 5 * k := by
    intro k
    induction k with
    | zero => rfl
    | succ k ih =>
      have hvalue : "Value".length = 5 := by decide
      rw [parameterCandidate, String.length_append, ih, hvalue]
      omega
  intro i j h
  have := congrArg String.length h
  rw [hlength, hlength] at this
  omega

/-- **The search ends**, and it gives the candidate at which it ends. -/
theorem exists_turns (taken : List String) (name : String) :
    ∃ k, Turns taken name k ∧
      firstFree (parameterCandidate name) taken 0 = parameterCandidate name k := by
  obtain ⟨k, -, hname, hfree, hearlier⟩ := firstFree_spec (parameterCandidate_injective name) taken 0
  exact ⟨k, ⟨fun j hj => hearlier j (Nat.zero_le j) hj, hfree⟩, hname⟩

namespace Turns

variable {taken : List String} {name : String} {k l : Nat}

/-- There are no more turns than names that are taken: each turn meets another one of them. -/
theorem le_length (h : Turns taken name k) : k ≤ taken.length := by
  have hdistinct : ((List.range k).map (parameterCandidate name)).Nodup :=
    List.nodup_range.map (parameterCandidate_injective name)
  have hsubset : (List.range k).map (parameterCandidate name) ⊆ taken := by
    intro x hx
    obtain ⟨j, hj, rfl⟩ := List.mem_map.mp hx
    exact h.passed j (List.mem_range.mp hj)
  have hlength := (List.subperm_of_subset hdistinct hsubset).length_le
  rwa [List.length_map, List.length_range] at hlength

theorem unique (h : Turns taken name k) (h' : Turns taken name l) : k = l := by
  rcases Nat.lt_trichotomy k l with hlt | heq | hgt
  · exact absurd (h'.passed k hlt) h.free
  · exact heq
  · exact absurd (h.passed l hgt) h'.free

end Turns

/-! ### Giving names -/

namespace Declaration

variable (d : Declaration)

theorem nodup_nameParameter {names : List String} (h : names.Nodup) (i : Nat) :
    (d.nameParameter names i).Nodup := by
  unfold nameParameter
  split
  · next p hp =>
    obtain ⟨k, hturns, hname⟩ := exists_turns names (camelCase p.name)
    rw [hname]
    exact h.set hturns.free
  · exact h

theorem getElem?_nameParameter_of_ne (names : List String) {i j : Nat} (h : i ≠ j) :
    (d.nameParameter names i)[j]? = names[j]? := by
  unfold nameParameter
  split
  · exact List.getElem?_set_ne h
  · rfl

theorem nodup_constructorParamNames (shorthand : List Nat)
    (h : (d.primaryParams.map Parameter.name).Nodup) :
    (d.constructorParamNames shorthand).Nodup := by
  unfold constructorParamNames
  -- The list is as distinct after each turn as before it, whichever names it mixes.
  generalize d.primaryParams.map Parameter.name = names at h
  induction shorthand generalizing names with
  | nil => exact h
  | cons i rest ih => exact ih _ (d.nodup_nameParameter h i)

/-- A name changes only when it is its turn. -/
theorem getElem?_foldl_of_notMem {shorthand : List Nat} {j : Nat} (h : j ∉ shorthand)
    (names : List String) : (shorthand.foldl d.nameParameter names)[j]? = names[j]? := by
  induction shorthand generalizing names with
  | nil => rfl
  | cons i rest ih =>
    have hne : i ≠ j := fun heq => h (heq ▸ List.mem_cons_self)
    rw [List.foldl_cons, ih fun hmem => h (List.mem_cons_of_mem i hmem),
      d.getElem?_nameParameter_of_ne names hne]

theorem getElem?_constructorParamNames_of_notMem {shorthand : List Nat} {i : Nat} {p : Parameter}
    (hp : d.primaryParams[i]? = some p) (h : i ∉ shorthand) :
    (d.constructorParamNames shorthand)[i]? = some p.name := by
  unfold constructorParamNames
  rw [d.getElem?_foldl_of_notMem h, List.getElem?_map, hp]
  rfl

/-- A parameter has the name that was found at its turn. -/
theorem getElem?_constructorParamNames {before after : List Nat} {i : Nat} {p : Parameter}
    (hp : d.primaryParams[i]? = some p) (hafter : i ∉ after) :
    (d.constructorParamNames (before ++ i :: after))[i]? =
      some (firstFree (parameterCandidate (camelCase p.name)) (d.constructorParamNames before) 0) := by
  have hi : i < (d.constructorParamNames before).length := by
    rw [d.length_constructorParamNames]
    exact (List.getElem?_eq_some_iff.mp hp).1
  have hsplit : d.constructorParamNames (before ++ i :: after) =
      after.foldl d.nameParameter (d.nameParameter (d.constructorParamNames before) i) := by
    unfold constructorParamNames
    rw [List.foldl_append, List.foldl_cons]
  rw [hsplit, d.getElem?_foldl_of_notMem hafter, nameParameter, hp]
  exact List.getElem?_set_self hi

theorem recognition_of_recognize {d : Declaration} {o : Options} {r : Recognition}
    (h : d.recognize o = .ok r) : d.recognition o = r := by
  unfold recognize at h
  split at h
  · cases h
  · exact Except.ok.inj h

/-- The turns come in the order of the parameters. -/
theorem pairwise_capitalizedParams : d.capitalizedParams.Pairwise (· < ·) := by
  have hsublist : d.capitalizedParams.Sublist (d.primaryParams.zipIdx.map Prod.snd) := by
    unfold capitalizedParams
    generalize d.primaryParams.zipIdx = indexed
    induction indexed with
    | nil => exact .slnil
    | cons x rest ih =>
      simp only [List.filterMap_cons, List.map_cons]
      split
      · exact ih.cons _
      · next i hi =>
        split at hi
        · cases hi
          exact ih.cons_cons _
        · cases hi
  rw [List.zipIdx_map_snd] at hsublist
  exact List.Pairwise.sublist hsublist List.pairwise_lt_range'

end Declaration

namespace Context

/-- The names as they stand when it is the turn of the parameter at position `i`. -/
def namesBefore (c : Context) (i : Nat) : List String :=
  c.declaration.constructorParamNames (c.recognition.shorthand.filter (· < i))

section Names

variable {o : Options} {importsSystem : Bool} {d : Declaration} {c : Context} {i : Nat}
  {p : Parameter} (hc : Context.of o importsSystem d = c) (hp : d.primaryParams[i]? = some p)
include hc

theorem pairwise_shorthand : c.recognition.shorthand.Pairwise (· < ·) := by
  subst hc
  show (if o.extensions.propertyShorthand then d.capitalizedParams else []).Pairwise (· < ·)
  split
  · exact d.pairwise_capitalizedParams
  · exact .nil

include hp

theorem mem_shorthand_iff : i ∈ c.recognition.shorthand ↔ c.isShorthand p = true := by
  rw [← contains_shorthand hc hp, List.contains_iff_mem]

/-- A parameter that declares no property keeps its name. -/
theorem getElem?_paramNames_of_kept (h : c.isShorthand p = false) :
    c.paramNames[i]? = some p.name := by
  have hnot : i ∉ c.recognition.shorthand := by
    rw [mem_shorthand_iff hc hp, h]
    exact Bool.false_ne_true
  subst hc
  exact d.getElem?_constructorParamNames_of_notMem hp hnot

/-- **A parameter that declares a property** has the candidate at which its search ended. -/
theorem exists_turns_paramNames (h : c.isShorthand p = true) :
    ∃ k, Turns (c.namesBefore i) (camelCase p.name) k ∧
      c.paramNames[i]? = some (parameterCandidate (camelCase p.name) k) := by
  obtain ⟨before, after, hsplit⟩ := List.append_of_mem ((mem_shorthand_iff hc hp).mpr h)
  have horder := pairwise_shorthand hc
  rw [hsplit, List.pairwise_append, List.pairwise_cons] at horder
  obtain ⟨-, ⟨hlater, -⟩, hearlier⟩ := horder
  -- Those before it in the list are the ones at smaller positions.
  have hbefore : c.recognition.shorthand.filter (· < i) = before := by
    have hall : before.filter (· < i) = before :=
      List.filter_eq_self.mpr fun j hj => decide_eq_true (hearlier j hj i List.mem_cons_self)
    have hnone : (i :: after).filter (· < i) = [] := by
      refine List.filter_eq_nil_iff.mpr fun j hj => ?_
      rcases List.mem_cons.mp hj with rfl | hj
      · simp
      · simpa using Nat.le_of_lt (hlater j hj)
    rw [hsplit, List.filter_append, hall, hnone, List.append_nil]
  have hafter : i ∉ after := fun hmem => Nat.lt_irrefl i (hlater i hmem)
  obtain ⟨k, hturns, hname⟩ := exists_turns (c.namesBefore i) (camelCase p.name)
  have hdeclaration : c.declaration = d := hc ▸ rfl
  refine ⟨k, hturns, ?_⟩
  rw [← hname, namesBefore, hbefore, paramNames, hsplit, hdeclaration]
  exact d.getElem?_constructorParamNames hp hafter

/-- The names of the parameters whose turn has not come are the old ones. -/
theorem name_mem_namesBefore {j : Nat} (hj : j ≤ i) : p.name ∈ c.namesBefore j := by
  have hnot : i ∉ c.recognition.shorthand.filter (· < j) := by
    intro hmem
    have hlt := of_decide_eq_true (List.mem_filter.mp hmem).2
    omega
  subst hc
  exact List.mem_of_getElem? (d.getElem?_constructorParamNames_of_notMem hp hnot)

end Names

end Context

/-! ### Reserved words -/

theorem isReserved_camelCase (name : String) : isReserved (camelCase name) = false := by
  have hmark : ∀ word ∈ reservedWords, word.toList.head? ≠ some '@' := by decide +kernel
  unfold camelCase
  dsimp only
  split
  · -- No reserved word starts with the mark.
    unfold isReserved
    rw [Bool.eq_false_iff, ne_eq, List.contains_iff_mem]
    intro hmem
    refine hmark _ hmem ?_
    rw [String.toList_append]
    rfl
  · next h => exact Bool.eq_false_iff.mpr h

/-- No name that is given to a constructor parameter is reserved. -/
theorem isReserved_parameterCandidate (name : String) (k : Nat) :
    isReserved (parameterCandidate (camelCase name) k) = false := by
  cases k with
  | zero => exact isReserved_camelCase name
  | succ k =>
    -- A candidate that was lengthened has a capital in it, and no reserved word has one.
    have hsmall : ∀ word ∈ reservedWords, 'V' ∉ word.toList := by decide +kernel
    unfold isReserved
    rw [Bool.eq_false_iff, ne_eq, List.contains_iff_mem]
    intro hmem
    refine hsmall _ hmem ?_
    rw [parameterCandidate, String.toList_append]
    exact List.mem_append_right _ (by decide)

/-- **The names of constructor parameters.** Let the primary parameters of a declaration that is
recognized have different names. Then each has one name in the constructor, and these names are
different too.

* A parameter that declares no property keeps its name.
* For one that declares a property the search ends, after at most as many turns as there are
  parameters. Its name is the property's in camel case, with `Value` once for each turn, and it is no
  reserved word. -/
theorem constructor_parameters_named {o : Options} {importsSystem : Bool} {d : Declaration}
    {r : Recognition} (hr : d.recognize o = .ok r)
    (hdistinct : (d.primaryParams.map Parameter.name).Nodup) :
    let c : Context := ⟨d, r, o, importsSystem⟩
    c.paramNames.length = d.primaryParams.length ∧ c.paramNames.Nodup ∧
      (∀ i p, d.primaryParams[i]? = some p → i ∉ r.shorthand → c.paramNames[i]? = some p.name) ∧
      ∀ i p, d.primaryParams[i]? = some p → i ∈ r.shorthand →
        ∃ k name, Turns (c.namesBefore i) (camelCase p.name) k ∧ k ≤ d.primaryParams.length ∧
          name = camelCase p.name ++ String.join (List.replicate k "Value") ∧
          c.paramNames[i]? = some name ∧ isReserved name = false := by
  obtain rfl := Declaration.recognition_of_recognize hr
  intro c
  have hc : Context.of o importsSystem d = c := rfl
  refine ⟨d.length_constructorParamNames _, d.nodup_constructorParamNames _ hdistinct, ?_, ?_⟩
  · intro i p hp hi
    refine Context.getElem?_paramNames_of_kept hc hp ?_
    rw [← Bool.not_eq_true, ← Context.mem_shorthand_iff hc hp]
    exact hi
  · intro i p hp hi
    obtain ⟨k, hturns, hname⟩ :=
      Context.exists_turns_paramNames hc hp ((Context.mem_shorthand_iff hc hp).mp hi)
    have hlength : (c.namesBefore i).length = d.primaryParams.length :=
      d.length_constructorParamNames _
    exact ⟨k, _, hturns, hlength ▸ hturns.le_length, parameterCandidate_eq _ k, hname,
      isReserved_parameterCandidate p.name k⟩

/-- `data class Form(int Class, int @class, int @Class, int size)`: two properties would best be
assigned from a parameter that is there already. -/
def crowdedForm : Declaration where
  attributes := []
  modifiers := []
  kind := .data
  singleton := false
  name := "Form"
  typeParams := none
  params := some [
    ⟨[], [], ⟨"int"⟩, "Class", none, none, .nowhere⟩,
    ⟨[], [], ⟨"int"⟩, "@class", none, none, .nowhere⟩,
    ⟨[], [], ⟨"int"⟩, "@Class", none, none, .nowhere⟩,
    ⟨[], [], ⟨"int"⟩, "size", none, none, .nowhere⟩]
  constructorAccess := none
  bases := []
  constraints := []
  source := .made ""
  span := .nowhere
  body := []

theorem constructor_parameters_named_crowdedForm :
    ∃ r, crowdedForm.recognize {} = .ok r ∧
      (crowdedForm.primaryParams.map Parameter.name).Nodup ∧
      Context.paramNames ⟨crowdedForm, r, {}, true⟩ =
        ["@classValue", "@class", "@classValueValue", "size"] ∧
      (Context.paramNames ⟨crowdedForm, r, {}, true⟩).Nodup ∧
      ∃ k, Turns (Context.namesBefore ⟨crowdedForm, r, {}, true⟩ 2) (camelCase "@Class") k ∧
        "@classValueValue" = camelCase "@Class" ++ String.join (List.replicate k "Value") := by
  have hr : crowdedForm.recognize {} = .ok (crowdedForm.recognition {}) := rfl
  have hdistinct : (crowdedForm.primaryParams.map Parameter.name).Nodup := by decide +kernel
  have hnames : Context.paramNames ⟨crowdedForm, crowdedForm.recognition {}, {}, true⟩ =
      ["@classValue", "@class", "@classValueValue", "size"] := by decide +kernel
  have hthird : crowdedForm.primaryParams[2]? =
      some ⟨[], [], ⟨"int"⟩, "@Class", none, none, .nowhere⟩ := rfl
  have hshorthand : 2 ∈ (crowdedForm.recognition {}).shorthand := by decide +kernel
  obtain ⟨-, hnodup, -, hsearch⟩ := constructor_parameters_named hr hdistinct
  obtain ⟨k, name, hturns, -, hname, hget, -⟩ := hsearch 2 _ hthird hshorthand
  rw [hnames] at hget
  cases hget
  exact ⟨_, hr, hdistinct, hnames, hnodup, k, hturns, hname⟩

/-! ### Shadowed properties -/

/-- Lowering makes none of the characters up to the mark, which is the last one before the capital
letters. -/
theorem Text.notMem_toLower {c x : Char} (hx : 0 < x.toNat ∧ x.toNat ≤ '@'.toNat) (hc : x ≠ c) :
    x ∉ Text.toLower c := by
  have himage : ∀ run ∈ Text.caseRuns, '@'.toNat < run.image := by decide +kernel
  have hbeyond : ∀ d : Char, d.toNat = 0 ∨ '@'.toNat < d.toNat → x ∉ [d] := by
    intro d hd hmem
    rw [List.mem_singleton.mp hmem] at hx
    omega
  unfold Text.toLower
  -- First the characters below 128, then the letter that becomes two, then the runs.
  split
  · unfold Char.toLower
    split
    · next hupper =>
      refine hbeyond _ (.inr ?_)
      have hletter : 'A'.toNat ≤ c.toNat ∧ c.toNat ≤ 'Z'.toNat := hupper
      change _ < (c.toNat + 32) % 2 ^ 32
      simp only [Char.reduceToNat] at hletter ⊢
      omega
    · rwa [List.mem_singleton]
  split
  · exact List.not_mem_append (hbeyond 'i' (by decide)) (hbeyond (Char.ofNat 0x307) (by decide))
  split
  · next n hn =>
    obtain ⟨run, hrun, hlower⟩ := List.exists_of_findSome?_eq_some hn
    have hlarge : '@'.toNat < n := by
      unfold Text.CaseRun.lower? at hlower
      split at hlower <;> cases hlower
      exact Nat.lt_of_lt_of_le (himage run hrun) (Nat.le_add_right _ _)
    apply hbeyond
    by_cases hvalid : n.isValidChar
    · rw [Char.ofNat, dif_pos hvalid]
      exact .inr hlarge
    · rw [Char.ofNat, dif_neg hvalid]
      exact .inl rfl
  · rwa [List.mem_singleton]

theorem Text.toLower_ne_nil (c : Char) : Text.toLower c ≠ [] := by
  unfold Text.toLower
  split
  · exact List.cons_ne_nil _ _
  split
  · exact List.cons_ne_nil _ _
  split
  · exact List.cons_ne_nil _ _
  · exact List.cons_ne_nil _ _

namespace Identifier

theorem same_iff {a b : String} : same a b = true ↔ bareChars a = bareChars b := by
  unfold same bare
  rw [beq_iff_eq, String.ofList_inj]

theorem isCapitalized_of_same {a b : String} (h : same a b = true) :
    isCapitalized a = isCapitalized b := by
  unfold isCapitalized
  rw [same_iff.mp h]

theorem bareChars_ne_nil {name : String} (h : isCapitalized name = true) : bareChars name ≠ [] := by
  intro hnil
  unfold isCapitalized at h
  rw [hnil] at h
  cases h

/-- What is appended to a name that has a letter is not taken for the mark. -/
theorem bareChars_append {name : String} (h : bareChars name ≠ []) (more : String) :
    bareChars (name ++ more) = bareChars name ++ more.toList := by
  unfold bareChars at h ⊢
  rw [String.toList_append, List.dropWhile_append, if_neg]
  simpa using h

theorem isCapitalized_append {name : String} (h : bareChars name ≠ []) (more : String) :
    isCapitalized (name ++ more) = isCapitalized name := by
  unfold isCapitalized
  rw [bareChars_append h]
  cases hname : bareChars name with
  | nil => exact absurd hname h
  | cons c rest => rfl

theorem bareChars_camelCase_ne_nil {name : String} (h : isCapitalized name = true) :
    bareChars (camelCase name) ≠ [] := by
  obtain ⟨c, rest, hname⟩ := List.exists_cons_of_ne_nil (bareChars_ne_nil h)
  have hc : c ≠ '@' := by
    have hhead := List.head?_dropWhile_not (· == '@') name.toList
    rw [show name.toList.dropWhile (· == '@') = c :: rest from hname] at hhead
    simpa using hhead
  obtain ⟨d, more, hlower⟩ := List.exists_cons_of_ne_nil (Text.toLower_ne_nil c)
  have hd : d ≠ '@' := by
    rintro rfl
    exact Text.notMem_toLower (by decide) hc.symm (hlower ▸ List.mem_cons_self)
  -- The first letter is lowered to something that is not the mark, so it is not dropped.
  have hbare : bareChars (String.ofList (lowerFirst (bareChars name))) =
      lowerFirst (bareChars name) := by
    unfold bareChars at hname ⊢
    rw [hname, lowerFirst, hlower, String.toList_ofList, List.cons_append,
      List.dropWhile_cons_of_neg (by simpa using hd)]
  have hfull : lowerFirst (bareChars name) ≠ [] := by
    rw [hname, lowerFirst, hlower]
    exact List.cons_ne_nil _ _
  unfold camelCase
  dsimp only
  split
  · have hmark : bareChars ("@" ++ String.ofList (lowerFirst (bareChars name))) =
        bareChars (String.ofList (lowerFirst (bareChars name))) := by
      unfold bareChars
      rw [String.toList_append]
      exact List.dropWhile_cons_of_pos rfl
    rw [hmark, hbare]
    exact hfull
  · rw [hbare]
    exact hfull

end Identifier

namespace Context

/-- The search for the name of the primary parameter `q` at position `i`, which declares a property,
ends after `k` turns. -/
structure Searches (c : Context) (i : Nat) (q : Parameter) (k : Nat) : Prop where
  param : c.declaration.primaryParams[i]? = some q
  shorthand : i ∈ c.recognition.shorthand
  turns : Turns (c.namesBefore i) (camelCase q.name) k

section Shadowed

variable {o : Options} {importsSystem : Bool} {d : Declaration} {c : Context}
  (hc : Context.of o importsSystem d = c)
include hc

theorem Searches.isShorthand {i k : Nat} {q : Parameter} (h : c.Searches i q k) :
    c.isShorthand q = true := by
  have hdeclaration : c.declaration = d := hc ▸ rfl
  have hparam : d.primaryParams[i]? = some q := hdeclaration ▸ h.param
  exact (mem_shorthand_iff hc hparam).mp h.shorthand

theorem Searches.mem_paramNames {i k : Nat} {q : Parameter} (h : c.Searches i q k) :
    parameterCandidate (camelCase q.name) k ∈ c.paramNames := by
  have hdeclaration : c.declaration = d := hc ▸ rfl
  have hparam : d.primaryParams[i]? = some q := hdeclaration ▸ h.param
  obtain ⟨l, hturns, hname⟩ := exists_turns_paramNames hc hparam (h.isShorthand hc)
  rw [h.turns.unique hturns]
  exact List.mem_of_getElem? hname

/-- **The capitals among the constructor parameters.** Where shorthand properties are understood, they
are the parameters that are capitals even in camel case. -/
theorem mem_paramNames_iff (hon : c.options.extensions.propertyShorthand = true) {name : String}
    (hcapital : isCapitalized name = true) :
    name ∈ c.paramNames ↔ ∃ i q k, c.Searches i q k ∧ isCapitalized (camelCase q.name) = true ∧
      name = parameterCandidate (camelCase q.name) k := by
  constructor
  · intro hmem
    obtain ⟨i, hname⟩ := List.getElem?_of_mem hmem
    have hi : i < d.primaryParams.length := by
      have hlength : c.paramNames.length = d.primaryParams.length :=
        hc ▸ d.length_constructorParamNames _
      rw [← hlength]
      exact (List.getElem?_eq_some_iff.mp hname).1
    have hq : d.primaryParams[i]? = some d.primaryParams[i] := List.getElem?_eq_getElem hi
    generalize d.primaryParams[i] = q at hq
    -- A parameter that keeps a capital would have declared a property.
    have hshorthand : c.isShorthand q = true := by
      by_contra hkept
      rw [Bool.not_eq_true] at hkept
      have hsame := (getElem?_paramNames_of_kept hc hq hkept).symm.trans hname
      rw [Option.some.injEq] at hsame
      unfold isShorthand Parameter.isCapitalized at hkept
      rw [hon, hsame, hcapital] at hkept
      cases hkept
    obtain ⟨k, hturns, hfound⟩ := exists_turns_paramNames hc hq hshorthand
    obtain rfl := Option.some.inj (hfound.symm.trans hname)
    refine ⟨i, q, k, ⟨hc ▸ hq, (mem_shorthand_iff hc hq).mpr hshorthand, hturns⟩, ?_, rfl⟩
    have hletters : bareChars (camelCase q.name) ≠ [] :=
      bareChars_camelCase_ne_nil (Bool.and_eq_true_iff.mp hshorthand).2
    rw [parameterCandidate_eq, isCapitalized_append hletters] at hcapital
    exact hcapital
  · rintro ⟨i, q, k, hsearch, -, rfl⟩
    exact hsearch.mem_paramNames hc

/-- The target of an assignment of a property is the name of a parameter that declares one. -/
theorem exists_of_mem_propertyAssignments {target value : String}
    (h : .assign target value ∈ c.fullPlan.propertyAssignments) :
    ∃ (j : Nat) (p : Parameter), d.primaryParams[j]? = some p ∧ c.isShorthand p = true ∧
      p.name = target := by
  have hslot : c.fullPlan.propertyAssignments =
      c.shorthandParams.map fun x => .assign x.1.name x.2 :=
    ite_map_shorthandParams hc fun x => Statement.assign x.1.name x.2
  rw [hslot, shorthandParams_eq_filter hc] at h
  obtain ⟨x, hx, heq⟩ := List.mem_map.mp h
  obtain ⟨hmem, hshorthand⟩ := List.mem_filter.mp hx
  have hdeclaration : c.declaration = d := hc ▸ rfl
  have hparam : x.1 ∈ d.primaryParams := hdeclaration ▸ (List.of_mem_zip hmem).1
  obtain ⟨j, hj⟩ := List.getElem?_of_mem hparam
  exact ⟨j, x.1, hj, hshorthand, (Statement.assign.inj heq).1⟩

end Shadowed

end Context

/-- **When a property is shadowed.** Let `target = value;` be an assignment of a property in the
constructor of a declaration that is recognized. Some constructor parameter is spelled like the
property exactly if it belongs to a parameter that stands behind the property's own, that is a capital
even in camel case, and whose search ended at this name. The same without the order holds for names
that differ only in the mark of their spelling.

So each assignment reaches its property as long as the first letters of the properties have a small
form. -/
theorem property_shadowed_iff {o : Options} {importsSystem : Bool} {d : Declaration}
    {r : Recognition} {plan : Plan} {target value : String} (hr : d.recognize o = .ok r)
    (hplan : Context.plan ⟨d, r, o, importsSystem⟩ Feature.all = .ok plan)
    (hassign : .assign target value ∈ plan.propertyAssignments) :
    let c : Context := ⟨d, r, o, importsSystem⟩
    (target ∈ c.paramNames ↔ ∃ i q k, c.Searches i q k ∧ isCapitalized (camelCase q.name) = true ∧
      target = camelCase q.name ++ String.join (List.replicate k "Value") ∧
      ∃ j < i, ∃ p, d.primaryParams[j]? = some p ∧ p.name = target) ∧
    ((∃ name ∈ c.paramNames, same name target = true) ↔ ∃ i q k, c.Searches i q k ∧
      isCapitalized (camelCase q.name) = true ∧
      bare target = bare (camelCase q.name) ++ String.join (List.replicate k "Value")) := by
  obtain rfl := Declaration.recognition_of_recognize hr
  intro c
  have hc : Context.of o importsSystem d = c := rfl
  rw [Context.plan_all] at hplan
  cases hplan
  obtain ⟨j, p, hj, hshorthand, rfl⟩ := Context.exists_of_mem_propertyAssignments hc hassign
  obtain ⟨hon, hcapital⟩ := Bool.and_eq_true_iff.mp hshorthand
  constructor
  · rw [Context.mem_paramNames_iff hc hon hcapital]
    constructor
    · rintro ⟨i, q, k, hsearch, hletter, hname⟩
      refine ⟨i, q, k, hsearch, hletter, hname.trans (parameterCandidate_eq _ k), j, ?_, p, hj, rfl⟩
      -- Otherwise the name would still be taken.
      by_contra hbehind
      refine hsearch.turns.free (hname ▸ ?_)
      exact Context.name_mem_namesBefore hc hj (Nat.le_of_not_lt hbehind)
    · rintro ⟨i, q, k, hsearch, hletter, hname, -⟩
      exact ⟨i, q, k, hsearch, hletter, hname.trans (parameterCandidate_eq _ k).symm⟩
  · constructor
    · rintro ⟨name, hmem, hsame⟩
      have hupper : isCapitalized name = true := (isCapitalized_of_same hsame).trans hcapital
      obtain ⟨i, q, k, hsearch, hletter, rfl⟩ :=
        (Context.mem_paramNames_iff hc hon hupper).mp hmem
      refine ⟨i, q, k, hsearch, hletter, ?_⟩
      rw [same_iff, parameterCandidate_eq, bareChars_append (bareChars_ne_nil hletter)] at hsame
      unfold bare
      rw [← hsame, String.ofList_append, String.ofList_toList]
    · rintro ⟨i, q, k, hsearch, hletter, hname⟩
      refine ⟨_, hsearch.mem_paramNames hc, ?_⟩
      rw [same_iff, parameterCandidate_eq, bareChars_append (bareChars_ne_nil hletter)]
      have hchars := congrArg String.toList hname
      unfold bare at hchars
      rw [String.toList_append, String.toList_ofList, String.toList_ofList] at hchars
      exact hchars.symm

/-- `class Bold(int 𝐀Value, int 𝐀)`. The second parameter is called as the first one was, which its
property still is. -/
def boldLetters : Declaration where
  attributes := []
  modifiers := []
  kind := .plain
  singleton := false
  name := "Bold"
  typeParams := none
  params := some [
    ⟨[], [], ⟨"int"⟩, "𝐀Value", none, none, .nowhere⟩,
    ⟨[], [], ⟨"int"⟩, "𝐀", none, none, .nowhere⟩]
  constructorAccess := none
  bases := []
  constraints := []
  source := .made ""
  span := .nowhere
  body := []

theorem property_shadowed_iff_boldLetters :
    ∃ r plan, boldLetters.recognize {} = .ok r ∧
      Context.plan ⟨boldLetters, r, {}, true⟩ Feature.all = .ok plan ∧
      .assign "𝐀Value" "𝐀ValueValue" ∈ plan.propertyAssignments ∧
      "𝐀Value" ∈ Context.paramNames ⟨boldLetters, r, {}, true⟩ := by
  have hr : boldLetters.recognize {} = .ok (boldLetters.recognition {}) := rfl
  have hplan := Context.plan_all (.of {} true boldLetters)
  have hassign : .assign "𝐀Value" "𝐀ValueValue" ∈
      (Context.of {} true boldLetters).fullPlan.propertyAssignments := by decide +kernel
  have hbefore : (Context.of {} true boldLetters).namesBefore 1 = ["𝐀ValueValue", "𝐀"] := by
    decide +kernel
  have hcamel : camelCase "𝐀" = "𝐀" := by decide +kernel
  -- The second parameter finds its own name taken, and the next one free again.
  have hsearch : (Context.of {} true boldLetters).Searches 1
      ⟨[], [], ⟨"int"⟩, "𝐀", none, none, .nowhere⟩ 1 := by
    refine ⟨rfl, by decide +kernel, ?_⟩
    rw [hbefore, hcamel]
    exact ⟨by decide +kernel, by decide +kernel⟩
  refine ⟨_, _, hr, hplan, hassign, (property_shadowed_iff hr hplan hassign).1.mpr
    ⟨1, _, 1, hsearch, ?_, ?_, 0, Nat.zero_lt_one, _, rfl, rfl⟩⟩
  · rw [hcamel]
    decide +kernel
  · rw [hcamel]
    decide +kernel

end ClassSugar
