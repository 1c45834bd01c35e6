import ClassSugar.Proofs.AllRules
import ClassSugar.Proofs.BodyParts

/-!
# What opens a body

A full plan lists the statements that open a body by target, in three slots, and it lists parameters
by their positions. This module reads both back into the source:

* `Context.opening_fullPlan` — a body is opened by the check of a singleton, the checks of its own
  asserted parameters in their order, and the unnamed initializer. The first and the last are there
  exactly if the body is one of those through which instances are made;
* `Context.member_mem_constructionTargets`, `Context.constructor_mem_constructionTargets` — which
  bodies these are;
* `map_zipIdx_getD` — a position in a parameter list, looked up in a list of names of the same
  length, is the parameter next to its name.

Every body with parameters is listed once (`Declaration.nodup_paramOwners`), which is why a target
finds its own checks and no others.
-/

namespace ClassSugar

/-! ### Constructors of the source -/

/-- The constructor that the item is, static or not. -/
def BodyItem.constructor? : BodyItem → Option Constructor
  | .member (.constructor k) => some k
  | _ => none

/-- The constructors of a declaration, in order. -/
def Declaration.constructors (d : Declaration) : List Constructor :=
  d.body.filterMap BodyItem.constructor?

/-- Whether a constructor makes an instance without calling another constructor of the class. -/
def Constructor.isRoot (k : Constructor) : Bool :=
  !k.isStatic && !k.chainsToThis

/-- Whether instances are made through a constructor of the source. -/
def Declaration.isTarget (d : Declaration) (k : Constructor) : Bool :=
  !d.hasPrimaryConstructor && k.isRoot

theorem BodyItem.constructor?_eq_some {item : BodyItem} {k : Constructor} :
    item.constructor? = some k ↔ item = .member (.constructor k) := by
  constructor
  · intro h
    unfold BodyItem.constructor? at h
    split at h
    · cases h
      rfl
    · cases h
  · rintro rfl
    rfl

theorem BodyItem.instanceConstructor?_eq_filter (item : BodyItem) :
    item.instanceConstructor? = item.constructor?.filter fun k => !k.isStatic := by
  match item with
  | .member (.constructor k) =>
    cases hstatic : k.isStatic <;>
      simp [BodyItem.instanceConstructor?, BodyItem.constructor?, Option.filter, hstatic]
  | .member (.field _) | .member (.property _) | .member (.method _) | .member (.type _)
  | .member (.raw _) | .statement _ | .comment _ => rfl

theorem Declaration.mem_constructors {d : Declaration} {k : Constructor} :
    k ∈ d.constructors ↔ .member (.constructor k) ∈ d.body := by
  unfold Declaration.constructors
  rw [List.mem_filterMap]
  simp only [BodyItem.constructor?_eq_some, exists_eq_right]

/-- The instance constructors are the constructors that are not static. -/
theorem Declaration.map_snd_instanceConstructors (d : Declaration) :
    d.instanceConstructors.map Prod.snd = d.constructors.filter fun k => !k.isStatic := by
  unfold Declaration.instanceConstructors Declaration.constructors
  rw [List.map_filterMap, List.filter_filterMap]
  conv_rhs => rw [← List.zipIdx_map_fst 0 d.body, List.filterMap_map]
  congr 1
  funext x
  simp [BodyItem.instanceConstructor?_eq_filter, Function.comp_def]

/-! ### Construction targets -/

/-- The root constructors with their positions. -/
def Declaration.roots (d : Declaration) : List (Nat × Constructor) :=
  d.instanceConstructors.filter fun x => !x.2.chainsToThis

theorem Declaration.mem_roots {d : Declaration} {i : Nat} {k : Constructor} :
    (i, k) ∈ d.roots ↔ d.body[i]? = some (.member (.constructor k)) ∧ k.isRoot = true := by
  have hroot : k.isRoot = true ↔ k.isStatic = false ∧ k.chainsToThis = false := by
    simp [Constructor.isRoot]
  rw [hroot, roots, List.mem_filter, instanceConstructors, List.mem_filterMap]
  constructor
  · rintro ⟨⟨⟨item, j⟩, hitem, hk⟩, hchain⟩
    obtain ⟨k', hk', heq⟩ := Option.map_eq_some_iff.mp hk
    cases heq
    rw [BodyItem.instanceConstructor?_eq_filter, Option.filter_eq_some_iff,
      BodyItem.constructor?_eq_some] at hk'
    obtain ⟨rfl, hstatic⟩ := hk'
    exact ⟨List.mem_zipIdx_iff_getElem?.mp hitem, by simpa using hstatic, by simpa using hchain⟩
  · rintro ⟨hget, hstatic, hchain⟩
    refine ⟨⟨(.member (.constructor k), i), List.mem_zipIdx_iff_getElem?.mpr hget, ?_⟩, ?_⟩
    · simp [BodyItem.instanceConstructor?, hstatic]
    · simp [hchain]

theorem Declaration.roots_eq_nil_iff {d : Declaration} :
    d.roots = [] ↔ ∀ k ∈ d.constructors, k.isRoot = false := by
  rw [List.eq_nil_iff_forall_not_mem]
  constructor
  · intro h k hk
    obtain ⟨i, hi⟩ := List.getElem?_of_mem (mem_constructors.mp hk)
    by_contra hroot
    exact h (i, k) (mem_roots.mpr ⟨hi, by simpa using hroot⟩)
  · rintro h ⟨i, k⟩ hmem
    obtain ⟨hget, hroot⟩ := mem_roots.mp hmem
    rw [h k (mem_constructors.mpr (List.mem_of_getElem? hget))] at hroot
    cases hroot

namespace Context

variable {c : Context}

theorem constructionTargets_of_primary (h : c.declaration.hasPrimaryConstructor = true) :
    c.constructionTargets = [.constructor] :=
  if_pos h

theorem constructionTargets_of_roots_eq_nil (h : c.declaration.roots = []) :
    c.constructionTargets = [.constructor] := by
  unfold constructionTargets
  split
  · rfl
  · split
    · rfl
    · next hroots => exact absurd h hroots

theorem constructionTargets_of_roots (h : c.declaration.hasPrimaryConstructor = false)
    (hroots : c.declaration.roots ≠ []) :
    c.constructionTargets = c.declaration.roots.map fun x => .member x.1 := by
  unfold constructionTargets
  rw [h, if_neg Bool.false_ne_true]
  split
  · next hnil => exact absurd hnil hroots
  · rfl

/-- Instances are made through a new constructor if the header implies it, or if no constructor of
the source makes one on its own. -/
theorem constructor_mem_constructionTargets :
    .constructor ∈ c.constructionTargets ↔
      c.declaration.hasPrimaryConstructor = true ∨
        ∀ k ∈ c.declaration.constructors, k.isRoot = false := by
  rw [← Declaration.roots_eq_nil_iff]
  cases hprimary : c.declaration.hasPrimaryConstructor with
  | true => simp [constructionTargets_of_primary hprimary]
  | false =>
    by_cases hroots : c.declaration.roots = []
    · simp [constructionTargets_of_roots_eq_nil hroots, hroots]
    · simp [constructionTargets_of_roots hprimary hroots, hroots]

/-- Instances are made through a constructor of the source if the header implies none and it is a
root. -/
theorem member_mem_constructionTargets {i : Nat} {k : Constructor}
    (hk : c.declaration.body[i]? = some (.member (.constructor k))) :
    .member i ∈ c.constructionTargets ↔ c.declaration.isTarget k = true := by
  unfold Declaration.isTarget
  cases hprimary : c.declaration.hasPrimaryConstructor with
  | true => simp [constructionTargets_of_primary hprimary]
  | false =>
    -- Without an implied constructor the targets are the positions of the roots.
    have hroot : k.isRoot = true ↔ (i, k) ∈ c.declaration.roots := by
      simp [Declaration.mem_roots, hk]
    rw [Bool.not_false, Bool.true_and, hroot]
    by_cases hroots : c.declaration.roots = []
    · simp [constructionTargets_of_roots_eq_nil hroots, hroots]
    · rw [constructionTargets_of_roots hprimary hroots, List.mem_map]
      constructor
      · rintro ⟨⟨j, k'⟩, hmem, heq⟩
        -- The position determines the constructor.
        obtain rfl : j = i := Target.member.inj heq
        have hk' := (Declaration.mem_roots.mp hmem).1
        rw [hk] at hk'
        cases hk'
        exact hmem
      · exact fun hmem => ⟨(i, k), hmem, rfl⟩

end Context

/-! ### Positions and names -/

/-- A position, looked up in a list of names that is as long, gives the name next to an element. -/
theorem map_zipIdx_getD {α : Type} (xs : List α) {names : List String}
    (hlength : names.length = xs.length) :
    xs.zipIdx.map (fun x => (x.1, names.getD x.2 "")) = xs.zip names := by
  refine List.ext_getElem (by simp [hlength]) fun i hi hi' => ?_
  have hname : i < names.length := by
    rw [List.length_map, List.length_zipIdx] at hi
    omega
  simp [hname]

/-- The names of the elements that pass a test, found by their positions. -/
theorem map_filterMap_zipIdx_getD {α β : Type} (xs : List α) {names : List String}
    (hlength : names.length = xs.length) (test : α → Bool) (f : String → β) :
    (xs.zipIdx.filterMap fun x => if test x.1 then some x.2 else none).map
        (fun i => f (names.getD i "")) =
      ((xs.zip names).filter fun x => test x.1).map fun x => f x.2 := by
  rw [← map_zipIdx_getD xs hlength, List.filter_map, List.map_map, List.map_filterMap,
    ← List.filterMap_eq_map, List.filterMap_filter]
  congr 1
  funext x
  by_cases htest : test x.1 = true <;> simp [htest]

theorem Declaration.length_nameParameter (d : Declaration) (names : List String) (i : Nat) :
    (d.nameParameter names i).length = names.length := by
  unfold Declaration.nameParameter
  split
  · rw [List.length_set]
  · rfl

/-- Each primary parameter has one name in the constructor. -/
theorem Declaration.length_constructorParamNames (d : Declaration) (shorthand : List Nat) :
    (d.constructorParamNames shorthand).length = d.primaryParams.length := by
  unfold Declaration.constructorParamNames
  -- Naming one parameter keeps the number of names, so a fold of such steps does.
  have hfold : ∀ names : List String,
      (shorthand.foldl d.nameParameter names).length = names.length := by
    induction shorthand with
    | nil => exact fun names => rfl
    | cons i rest ih =>
      intro names
      rw [List.foldl_cons, ih, d.length_nameParameter]
  rw [hfold, List.length_map]

/-! ### Values by target -/

theorem lookup_map_const {α : Type} (targets : List Target) (v : α) (t : Target) :
    (targets.map fun u => (u, v)).lookup t = if t ∈ targets then some v else none := by
  induction targets with
  | nil => simp
  | cons u rest ih =>
    by_cases h : t = u
    · simp [h]
    · have hne : (t == u) = false := beq_false_of_ne h
      simp [List.lookup_cons, hne, ih, h]

/-- With at most one value for each target, a target finds its own. -/
theorem lookup_filterMap_of_nodup {α β : Type} {xs : List (Target × α)}
    (hnodup : (xs.map Prod.fst).Nodup) (f : Target × α → Option β) {t : Target} {a : α}
    (hmem : (t, a) ∈ xs) :
    (xs.filterMap fun x => (f x).map (x.1, ·)).lookup t = f (t, a) := by
  -- A target for which nothing is listed finds nothing.
  have hother : ∀ rest : List (Target × α), t ∉ rest.map Prod.fst →
      (rest.filterMap fun x => (f x).map (x.1, ·)).lookup t = none := by
    intro rest hrest
    rw [List.lookup_eq_none_iff]
    intro p hp
    obtain ⟨x, hx, hfx⟩ := List.mem_filterMap.mp hp
    obtain ⟨b, -, rfl⟩ := Option.map_eq_some_iff.mp hfx
    exact bne_iff_ne.mpr fun heq => hrest (heq ▸ List.mem_map_of_mem hx)
  induction xs with
  | nil => cases hmem
  | cons x rest ih =>
    rw [List.map_cons, List.nodup_cons] at hnodup
    rcases List.mem_cons.mp hmem with rfl | hmem
    · -- The value of the target stands first; no later one is for it.
      cases hf : f (t, a) with
      | none => rw [List.filterMap_cons_none (by rw [hf]; rfl), hother rest hnodup.1]
      | some b => rw [List.filterMap_cons_some (by rw [hf]; rfl), List.lookup_cons_self]
    · -- What stands first is for another target and is passed over.
      have hne : t ≠ x.1 := fun heq => hnodup.1 (heq ▸ List.mem_map_of_mem hmem)
      cases hf : f x with
      | none => rw [List.filterMap_cons_none (by rw [hf]; rfl), ih hnodup.2 hmem]
      | some b =>
        rw [List.filterMap_cons_some (by rw [hf]; rfl), List.lookup_cons, beq_false_of_ne hne,
          ih hnodup.2 hmem]

/-! ### Bodies with parameters -/

theorem BodyItem.member?_eq_some {item : BodyItem} {m : Member} :
    item.member? = some m ↔ item = .member m := by
  cases item <;> simp [BodyItem.member?]

namespace Declaration

variable {d : Declaration}

theorem mem_paramOwners {t : Target} {params : List Parameter} :
    (t, params) ∈ d.paramOwners ↔ (t = .constructor ∧ params = d.primaryParams) ∨
      ∃ i m, d.body[i]? = some (.member m) ∧ t = .member i ∧ params = m.params := by
  unfold paramOwners
  rw [List.mem_cons, Prod.mk.injEq, List.mem_filterMap]
  refine or_congr_right ⟨?_, ?_⟩
  · rintro ⟨⟨item, i⟩, hitem, howner⟩
    obtain ⟨m, hm, heq⟩ := Option.map_eq_some_iff.mp howner
    cases heq
    rw [BodyItem.member?_eq_some] at hm
    exact ⟨i, m, hm ▸ List.mem_zipIdx_iff_getElem?.mp hitem, rfl, rfl⟩
  · rintro ⟨i, m, hget, rfl, rfl⟩
    exact ⟨(.member m, i), List.mem_zipIdx_iff_getElem?.mpr hget, rfl⟩

/-- **Every body with parameters is listed once.** -/
theorem nodup_paramOwners (d : Declaration) : (d.paramOwners.map Prod.fst).Nodup := by
  unfold paramOwners
  rw [List.map_cons, List.nodup_cons, List.map_filterMap]
  -- An item is listed, if at all, under its own position.
  have htarget : ∀ (x : BodyItem × Nat) (t : Target),
      (x.1.member?.map fun m => (Target.member x.2, m.params)).map Prod.fst = some t →
        t = .member x.2 := by
    intro x t ht
    obtain ⟨y, hy, rfl⟩ := Option.map_eq_some_iff.mp ht
    obtain ⟨m, -, rfl⟩ := Option.map_eq_some_iff.mp hy
    rfl
  constructor
  · intro hmem
    obtain ⟨x, -, heq⟩ := List.mem_filterMap.mp hmem
    cases htarget x _ heq
  · -- The targets of members are their positions, which are all different.
    have hpositions : (d.body.zipIdx.map Prod.snd).Nodup := by
      rw [List.zipIdx_map_snd]
      exact List.nodup_range'
    refine List.pairwise_filterMap.mpr ((List.pairwise_map.mp hpositions).imp ?_)
    intro x y hne t ht t' ht' heq
    rw [htarget x t ht, htarget y t' ht'] at heq
    exact hne (Target.member.inj heq)

end Declaration

/-! ### The opening of a body -/

namespace Context

/-- The check of a singleton, if the declaration is one. -/
def singletonChecks (c : Context) : List Statement :=
  if c.recognition.features.singletonMarker then [c.singletonGuard] else []

/-- The checks of the asserted parameters among some that stand next to their names. -/
def assertionChecks (c : Context) (named : List (Parameter × String)) : List Statement :=
  if c.options.extensions.nullAssertion then
    (named.filter fun x => x.1.nullAssertion.isSome).map fun x => c.nullGuard x.2
  else []

theorem length_namesOf {c : Context} {t : Target} {params : List Parameter}
    (h : (t, params) ∈ c.declaration.paramOwners) : (c.namesOf t).length = params.length := by
  obtain ⟨rfl, rfl⟩ | ⟨i, m, hget, rfl, rfl⟩ := Declaration.mem_paramOwners.mp h
  · exact c.declaration.length_constructorParamNames _
  · simp [namesOf, hget]

/-- The checks of a body are found by the positions of its asserted parameters. -/
theorem nullGuards_asserted {c : Context} {t : Target} {params : List Parameter}
    (h : (t, params) ∈ c.declaration.paramOwners) :
    c.nullGuards ⟨t, Parameter.asserted params⟩ =
      ((params.zip (c.namesOf t)).filter fun x => x.1.nullAssertion.isSome).map
        fun x => c.nullGuard x.2 :=
  map_filterMap_zipIdx_getD params (length_namesOf h) (·.nullAssertion.isSome) c.nullGuard

section FullPlan

variable (o : Options) (importsSystem : Bool) (d : Declaration)

/-- The slot of the checks is filled from the recognized places; without one it stays empty. -/
theorem nullGuards_fullPlan :
    (Context.of o importsSystem d).fullPlan.nullGuards =
      (d.recognition o).nullChecks.map fun site =>
        (site.owner, (Context.of o importsSystem d).nullGuards site) := by
  change (if (!(d.recognition o).nullChecks.isEmpty) = true then
    (d.recognition o).nullChecks.map _ else []) = _
  cases (d.recognition o).nullChecks <;> rfl

/-- A body finds its own checks in the slot, and nothing if none of its parameters is asserted. -/
theorem lookup_nullGuards_of_on (hon : o.extensions.nullAssertion = true) {t : Target}
    {params : List Parameter} (h : (t, params) ∈ d.paramOwners) :
    (Context.of o importsSystem d).fullPlan.nullGuards.lookup t =
      if (Parameter.asserted params).isEmpty then none
      else some ((Context.of o importsSystem d).nullGuards ⟨t, Parameter.asserted params⟩) := by
  have hchecks : (d.recognition o).nullChecks = d.nullSites := if_pos hon
  have hsites : (d.nullSites.map fun site =>
      (site.owner, (Context.of o importsSystem d).nullGuards site)) =
      d.paramOwners.filterMap fun x =>
        (if (Parameter.asserted x.2).isEmpty then none
          else some ((Context.of o importsSystem d).nullGuards
            ⟨x.1, Parameter.asserted x.2⟩)).map (x.1, ·) := by
    unfold Declaration.nullSites
    rw [List.map_filterMap]
    congr 1
    funext x
    dsimp only
    split <;> rfl
  rw [nullGuards_fullPlan, hchecks, hsites, lookup_filterMap_of_nodup d.nodup_paramOwners _ h]

/-- A body with parameters finds the checks of those that are asserted, in their order. -/
theorem lookup_nullGuards_fullPlan {t : Target} {params : List Parameter}
    (h : (t, params) ∈ d.paramOwners) :
    ((Context.of o importsSystem d).fullPlan.nullGuards.lookup t).getD [] =
      (Context.of o importsSystem d).assertionChecks
        (params.zip ((Context.of o importsSystem d).namesOf t)) := by
  unfold assertionChecks
  change _ = if o.extensions.nullAssertion then _ else []
  by_cases hon : o.extensions.nullAssertion = true
  · rw [if_pos hon, lookup_nullGuards_of_on o importsSystem d hon h, ← nullGuards_asserted h]
    -- Without an asserted parameter there is no value for the target, and no check either.
    split
    · next hempty => simp [nullGuards, List.isEmpty_iff.mp hempty]
    · rfl
  · have hchecks : (d.recognition o).nullChecks = [] := if_neg hon
    rw [if_neg hon, nullGuards_fullPlan, hchecks]
    rfl

end FullPlan

/-- **What opens a body with parameters**: the check of a singleton, the checks of its own asserted
parameters, the unnamed initializer. Only bodies through which instances are made get the first and
the last. -/
theorem opening_fullPlan {o : Options} {importsSystem : Bool} {d : Declaration} {c : Context}
    (hc : Context.of o importsSystem d = c) {t : Target} {params : List Parameter}
    (h : (t, params) ∈ d.paramOwners) :
    c.fullPlan.opening t =
      (if t ∈ c.constructionTargets then c.singletonChecks else []) ++
      c.assertionChecks (params.zip (c.namesOf t)) ++
      (if t ∈ c.constructionTargets then c.initializerStatements else []) := by
  -- The first and the last slot hold the same for each construction target, and nothing else.
  have hguards : (c.fullPlan.singletonGuards.lookup t).toList =
      if t ∈ c.constructionTargets then c.singletonChecks else [] := by
    by_cases hmark : c.recognition.features.singletonMarker = true
    · simp only [fullPlan, singletonChecks, hmark, if_true, lookup_map_const]
      split <;> rfl
    · simp [fullPlan, singletonChecks, hmark]
  have hchecks : (c.fullPlan.nullGuards.lookup t).getD [] =
      c.assertionChecks (params.zip (c.namesOf t)) := by
    rw [← hc]
    exact lookup_nullGuards_fullPlan o importsSystem d h
  have hinitializer : (c.fullPlan.initializer.lookup t).getD [] =
      if t ∈ c.constructionTargets then c.initializerStatements else [] := by
    have hfeature : c.recognition.features.unnamedInitializer =
        decide (0 < c.recognition.initializerEnd) := hc ▸ rfl
    by_cases hpos : 0 < c.recognition.initializerEnd
    · simp only [fullPlan, hfeature, hpos, decide_true, if_true, lookup_map_const]
      split <;> rfl
    · simp [fullPlan, initializerStatements, hfeature, Nat.eq_zero_of_not_pos hpos]
  unfold Plan.opening
  rw [hguards, hchecks, hinitializer]

end Context

end ClassSugar
