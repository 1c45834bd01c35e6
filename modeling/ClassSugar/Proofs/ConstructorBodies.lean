import ClassSugar.Proofs.Openings
import ClassSugar.Proofs.Settled

/-!
# The bodies of constructors

The constructors of a lowered declaration are a new one, if there has to be one, and after it those
of the source in their order. What their bodies say is decided by five rules that fill seven slots
of a plan; here each body is read off the source instead.

* `Context.constructorBody_fullPlan` — a new constructor has the check of a singleton, the checks of
  asserted primary parameters, the unnamed initializer, the assignments of shorthand properties, the
  moved initializers and the captures, each in the order of the source.
* `Context.constructors_lowered` — a constructor of the source keeps its statements, behind what
  opens its body.

Positions are gone from both: a parameter stands next to its name in the constructor
(`Context.namedParams`), and whether it declares a property or is captured is asked of the parameter
itself.
-/

namespace ClassSugar

/-! ### Primary parameters and their names -/

namespace Context

/-- The primary parameters next to their names in the constructor. -/
def namedParams (c : Context) : List (Parameter × String) :=
  c.declaration.primaryParams.zip c.paramNames

/-- Whether a primary parameter declares a property. -/
def isShorthand (c : Context) (p : Parameter) : Bool :=
  c.options.extensions.propertyShorthand && p.isCapitalized

/-- Whether a primary parameter has to be kept in a field. -/
def isCaptured (c : Context) (p : Parameter) : Bool :=
  !c.isShorthand p && !c.declaration.declaresMember p.name &&
    c.stayingMembers.any (Member.reads p.name)

theorem map_zipIdx_paramNames (c : Context) :
    c.declaration.primaryParams.zipIdx.map (fun x => (x.1, c.paramNames.getD x.2 "")) =
      c.namedParams :=
  map_zipIdx_getD _ (c.declaration.length_constructorParamNames _)

section Read

variable {o : Options} {importsSystem : Bool} {d : Declaration} {c : Context}
  (hc : Context.of o importsSystem d = c)
include hc

/-- The position of a parameter is one of a shorthand property exactly if it declares one. -/
theorem contains_shorthand {p : Parameter} {i : Nat} (h : d.primaryParams[i]? = some p) :
    c.recognition.shorthand.contains i = c.isShorthand p := by
  subst hc
  change (if o.extensions.propertyShorthand then d.capitalizedParams else []).contains i =
    (o.extensions.propertyShorthand && p.isCapitalized)
  cases o.extensions.propertyShorthand with
  | false => rfl
  | true =>
    -- There is one parameter at the position, so the test is about that one.
    have hmem : i ∈ d.capitalizedParams ↔ p.isCapitalized = true := by
      simp [Declaration.capitalizedParams, List.mem_zipIdx_iff_getElem?, h]
    rw [if_pos rfl, Bool.true_and, Bool.eq_iff_iff, List.contains_iff_mem, hmem]

/-- The parameters that declare properties, in parameter order. -/
theorem shorthandParams_eq_filter :
    c.shorthandParams = c.namedParams.filter fun x => c.isShorthand x.1 := by
  have hshorthand : c.recognition.shorthand =
      c.declaration.primaryParams.zipIdx.filterMap fun x =>
        if c.isShorthand x.1 then some x.2 else none := by
    subst hc
    change (if o.extensions.propertyShorthand then d.capitalizedParams else []) =
      d.primaryParams.zipIdx.filterMap fun x =>
        if (o.extensions.propertyShorthand && x.1.isCapitalized) = true then some x.2 else none
    cases o.extensions.propertyShorthand with
    | true => rfl
    | false => simp
  unfold shorthandParams
  rw [← map_zipIdx_paramNames, hshorthand, List.filterMap_filterMap, List.filter_map,
    ← List.filterMap_eq_map, List.filterMap_filter]
  refine List.filterMap_congr ?_
  rintro ⟨p, i⟩ hp
  -- The position that is found for a parameter leads back to the parameter.
  have hget : c.declaration.primaryParams[i]? = some p := List.mem_zipIdx_iff_getElem?.mp hp
  by_cases htest : c.isShorthand p = true <;> simp [htest, hget]

/-- A slot that is filled from the shorthand properties is the same whether or not there are any. -/
theorem ite_map_shorthandParams {α : Type} (f : Parameter × String → α) :
    (if c.recognition.features.propertyShorthand then c.shorthandParams.map f else []) =
      c.shorthandParams.map f := by
  have hfeature : c.recognition.features.propertyShorthand =
      !c.recognition.shorthand.isEmpty := hc ▸ rfl
  by_cases hnone : c.recognition.shorthand = []
  · simp [shorthandParams, hfeature, hnone]
  · have hsome : c.recognition.features.propertyShorthand = true := by
      rw [hfeature]
      simpa using hnone
    exact if_pos hsome

/-- The parameters that are kept in fields, in parameter order. -/
theorem captured_eq_filter :
    c.captured = c.namedParams.filter fun x => c.isCaptured x.1 := by
  unfold captured
  rw [← map_zipIdx_paramNames, List.filter_map, ← List.filterMap_eq_map, List.filterMap_filter]
  refine List.filterMap_congr ?_
  rintro ⟨p, i⟩ hp
  have hget : d.primaryParams[i]? = some p := by
    rw [List.mem_zipIdx_iff_getElem?, ← hc] at hp
    exact hp
  simp only [isCaptured, Function.comp_apply, ← contains_shorthand hc hget]

end Read

theorem movedInitializer?_of_primaryParams_eq_nil {c : Context}
    (h : c.declaration.primaryParams = []) (item : BodyItem) : c.movedInitializer? item = none := by
  unfold movedInitializer?
  rw [h]
  simp

/-- The moved initializers, in member order. -/
theorem movedAssignments_eq_map (c : Context) :
    c.movedAssignments =
      (c.declaration.body.filterMap c.movedInitializer?).map fun x =>
        movedAssignment c.paramNames x.1 x.2 := by
  -- The positions of the moved members are only asked for elsewhere.
  have hmembers : c.movedMembers.map Prod.snd =
      c.declaration.body.filterMap c.movedInitializer? := by
    unfold movedMembers
    rw [List.map_filterMap]
    conv_rhs => rw [← List.zipIdx_map_fst 0 c.declaration.body, List.filterMap_map]
    congr 1
    funext x
    simp [Function.comp_def]
  rw [← hmembers, List.map_map]
  rfl

end Context

/-! ### The new constructor -/

/-- Whether a declaration gets a new constructor: its header implies one, or the check of a
singleton or an unnamed initializer has no constructor to go to. -/
def Declaration.getsConstructor (o : Options) (d : Declaration) : Bool :=
  d.hasPrimaryConstructor ||
    (d.constructors.all fun k => !k.isRoot) &&
      (o.extensions.singleton && d.singleton ||
        o.extensions.unnamedInitializer && decide (0 < d.initializerLength))

namespace Context

section New

variable {o : Options} {importsSystem : Bool} {d : Declaration} {c : Context}
  (hc : Context.of o importsSystem d = c)
include hc

/-- **The unnamed initializer becomes one statement for each of its items.** None of them is a
member, so none is dropped. -/
theorem map_some_initializerStatements :
    c.initializerStatements.map some =
      (d.body.take (if o.extensions.unnamedInitializer then d.initializerLength else 0)).map
        initializerStatement? := by
  have hread : c.initializerStatements =
      (d.body.take (if o.extensions.unnamedInitializer then d.initializerLength else 0)).filterMap
        initializerStatement? := hc ▸ rfl
  -- Statements and comments become statements; a member would become none.
  have hloose : ∀ item ∈
      d.body.take (if o.extensions.unnamedInitializer then d.initializerLength else 0),
      item.isMember = false := by
    intro item hitem
    split at hitem
    · exact d.isMember_eq_false_of_mem_take hitem
    · cases hitem
  rw [hread, List.map_filterMap, ← List.filterMap_eq_map]
  refine List.filterMap_congr fun item hitem => ?_
  have hitem := hloose item hitem
  cases item with
  | member m => cases hitem
  | statement _ | comment _ => rfl

theorem length_initializerStatements :
    c.initializerStatements.length =
      if o.extensions.unnamedInitializer then d.initializerLength else 0 := by
  have hlength : d.initializerLength ≤ d.body.length := by
    obtain ⟨opening, quiet, hbody, hlength, -⟩ := d.body_split
    rw [hbody, List.length_append]
    omega
  have hmap := congrArg List.length (map_some_initializerStatements hc)
  rw [List.length_map, List.length_map, List.length_take, Nat.min_eq_left] at hmap
  · exact hmap
  · split
    · exact hlength
    · exact Nat.zero_le _

theorem primary_fullPlan :
    c.fullPlan.primary = if d.hasPrimaryConstructor then some c.primaryPlan else none :=
  hc ▸ rfl

/-- Without a constructor implied by the header there are no primary parameters. -/
theorem primaryParams_of_not_primary (h : d.hasPrimaryConstructor = false) :
    c.declaration.primaryParams = [] := by
  subst hc
  simp only [Declaration.hasPrimaryConstructor, Bool.or_eq_false_iff, Option.isSome_eq_false_iff,
    Option.isNone_iff_eq_none] at h
  change d.params.getD [] = []
  rw [h.1.1, Option.getD_none]

theorem namedParams_of_not_primary (h : d.hasPrimaryConstructor = false) : c.namedParams = [] := by
  unfold namedParams
  rw [primaryParams_of_not_primary hc h, List.zip_nil_left]

theorem constructor_mem_iff :
    .constructor ∈ c.constructionTargets ↔
      (d.hasPrimaryConstructor || d.constructors.all fun k => !k.isRoot) = true := by
  rw [constructor_mem_constructionTargets]
  subst hc
  change d.hasPrimaryConstructor = true ∨ (∀ k ∈ d.constructors, k.isRoot = false) ↔ _
  simp

theorem opening_constructor :
    c.fullPlan.opening .constructor =
      (if .constructor ∈ c.constructionTargets then c.singletonChecks else []) ++
      c.assertionChecks c.namedParams ++
      (if .constructor ∈ c.constructionTargets then c.initializerStatements else []) := by
  have howner : (Target.constructor, d.primaryParams) ∈ d.paramOwners := List.mem_cons_self
  rw [opening_fullPlan hc howner]
  subst hc
  rfl

theorem singletonChecks_eq_nil_iff :
    c.singletonChecks = [] ↔ (o.extensions.singleton && d.singleton) = false := by
  subst hc
  change (if (o.extensions.singleton && d.singleton) = true then _ else []) = [] ↔ _
  cases o.extensions.singleton && d.singleton <;> simp

theorem initializerStatements_eq_nil_iff :
    c.initializerStatements = [] ↔
      (o.extensions.unnamedInitializer && decide (0 < d.initializerLength)) = false := by
  rw [← List.length_eq_zero_iff, length_initializerStatements hc]
  cases o.extensions.unnamedInitializer <;> simp

theorem addsConstructor_fullPlan : c.fullPlan.addsConstructor = d.getsConstructor o := by
  unfold Plan.addsConstructor Declaration.getsConstructor
  rw [primary_fullPlan hc, opening_constructor hc]
  cases hprimary : d.hasPrimaryConstructor with
  | true => rfl
  | false =>
    -- Only the check of a singleton and the initializer can ask for a constructor.
    have hchecks : c.assertionChecks c.namedParams = [] := by
      rw [namedParams_of_not_primary hc hprimary]
      unfold assertionChecks
      split <;> rfl
    have htarget := constructor_mem_iff hc
    rw [hprimary, Bool.false_or] at htarget
    rw [hchecks, List.append_nil]
    cases hroots : d.constructors.all fun k => !k.isRoot with
    | true =>
      have hempty : (c.singletonChecks ++ c.initializerStatements).isEmpty =
          !(o.extensions.singleton && d.singleton ||
            o.extensions.unnamedInitializer && decide (0 < d.initializerLength)) := by
        rw [Bool.eq_iff_iff, List.isEmpty_iff, List.append_eq_nil_iff,
          singletonChecks_eq_nil_iff hc, initializerStatements_eq_nil_iff hc, Bool.not_eq_true',
          Bool.or_eq_false_iff]
      rw [if_pos (htarget.mpr hroots), if_pos (htarget.mpr hroots), hempty, Bool.not_not]
      rfl
    | false =>
      have hnot : .constructor ∉ c.constructionTargets := by
        rw [htarget, hroots]
        exact Bool.false_ne_true
      rw [if_neg hnot, if_neg hnot]
      rfl

/-- A list that is made of the primary parameters that pass a test needs none of their names. -/
theorem map_filter_namedParams {α : Type} (test : Parameter → Bool) (f : Parameter → α) :
    (c.namedParams.filter fun x => test x.1).map (fun x => f x.1) =
      (d.primaryParams.filter test).map f := by
  have hfirst : c.namedParams.map Prod.fst = d.primaryParams := by
    subst hc
    exact List.map_fst_zip (d.length_constructorParamNames _).ge
  rw [← hfirst, List.filter_map, List.map_map]
  rfl

/-- The fields that keep primary parameters, in parameter order. -/
theorem captures_fullPlan :
    (c.fullPlan.primary.map PrimaryPlan.captures).getD [] =
      (d.primaryParams.filter c.isCaptured).map captureField := by
  rw [primary_fullPlan hc]
  cases hprimary : d.hasPrimaryConstructor with
  | true =>
    rw [if_pos rfl, Option.map_some, Option.getD_some, ← map_filter_namedParams hc,
      ← captured_eq_filter hc]
    rfl
  | false =>
    have hparams : d.primaryParams = [] := by
      have hnone := primaryParams_of_not_primary hc hprimary
      subst hc
      exact hnone
    rw [hparams]
    rfl

/-- The properties that primary parameters declare, in parameter order. -/
theorem properties_fullPlan :
    c.fullPlan.properties = (d.primaryParams.filter c.isShorthand).map c.shorthandProperty := by
  have hslot : c.fullPlan.properties = c.shorthandParams.map fun x => c.shorthandProperty x.1 :=
    ite_map_shorthandParams hc _
  rw [hslot, shorthandParams_eq_filter hc, map_filter_namedParams hc]

/-- Without primary parameters no initializer moves. -/
theorem filterMap_movedInitializer?_of_not_primary (h : d.hasPrimaryConstructor = false) :
    d.body.filterMap c.movedInitializer? = [] := by
  rw [List.filterMap_eq_nil_iff]
  intro item _
  exact movedInitializer?_of_primaryParams_eq_nil (primaryParams_of_not_primary hc h) item

/-- **The body of a new constructor.** -/
theorem constructorBody_fullPlan (h : d.getsConstructor o = true) :
    c.fullPlan.constructorBody =
      c.singletonChecks ++ c.assertionChecks c.namedParams ++ c.initializerStatements ++
      (c.namedParams.filter fun x => c.isShorthand x.1).map (fun x => .assign x.1.name x.2) ++
      (d.body.filterMap c.movedInitializer?).map
        (fun x => movedAssignment c.paramNames x.1 x.2) ++
      (c.namedParams.filter fun x => c.isCaptured x.1).map
        (fun x => .assign ("this." ++ x.1.name) x.2) := by
  have htarget : .constructor ∈ c.constructionTargets := by
    rw [constructor_mem_iff hc]
    simp only [Declaration.getsConstructor, Bool.or_eq_true, Bool.and_eq_true] at h ⊢
    exact h.imp_right And.left
  have hproperties : c.fullPlan.propertyAssignments =
      c.shorthandParams.map fun x => .assign x.1.name x.2 := ite_map_shorthandParams hc _
  unfold Plan.constructorBody
  rw [opening_constructor hc, if_pos htarget, if_pos htarget, hproperties,
    shorthandParams_eq_filter hc, primary_fullPlan hc]
  -- Initializers move, and parameters are captured, only with a primary constructor.
  cases hprimary : d.hasPrimaryConstructor with
  | true =>
    have hmoved : c.primaryPlan.movedAssignments =
        (d.body.filterMap c.movedInitializer?).map fun x =>
          movedAssignment c.paramNames x.1 x.2 := by
      rw [show c.primaryPlan.movedAssignments = c.movedAssignments from rfl,
        movedAssignments_eq_map, ← hc]
      rfl
    have hcaptured : c.primaryPlan.captureAssignments =
        (c.namedParams.filter fun x => c.isCaptured x.1).map
          fun x => .assign ("this." ++ x.1.name) x.2 := by
      rw [← captured_eq_filter hc]
      rfl
    simp only [if_true, hmoved, hcaptured, List.append_assoc]
  | false =>
    rw [filterMap_movedInitializer?_of_not_primary hc hprimary,
      namedParams_of_not_primary hc hprimary]
    simp

end New

end Context

/-! ### The constructors of a lowered declaration -/

namespace Context

/-- What opens the body of a constructor of the source. -/
def explicitOpening (c : Context) (k : Constructor) : List Statement :=
  (if c.declaration.isTarget k then c.singletonChecks else []) ++
    c.assertionChecks (k.params.map fun p => (p, p.name)) ++
    (if c.declaration.isTarget k then c.initializerStatements else [])

/-- A constructor of the source as a full plan leaves it. -/
def patchedConstructor (c : Context) (k : Constructor) : Constructor :=
  { k with
    params := k.params.map c.fullPlan.stripped
    body := ⟨c.explicitOpening k ++ k.body.stmts⟩ }

section Lowered

variable {o : Options} {importsSystem : Bool} {d : Declaration} {c : Context}
  (hc : Context.of o importsSystem d = c)
include hc

theorem opening_member {i : Nat} {k : Constructor}
    (h : d.body[i]? = some (.member (.constructor k))) :
    c.fullPlan.opening (.member i) = c.explicitOpening k := by
  have howner : (Target.member i, k.params) ∈ d.paramOwners :=
    Declaration.mem_paramOwners.mpr (.inr ⟨i, _, h, rfl, rfl⟩)
  have hget : c.declaration.body[i]? = some (.member (.constructor k)) := hc ▸ h
  have hnames : k.params.zip (c.namesOf (.member i)) = k.params.map fun p => (p, p.name) := by
    rw [List.map_prod_left_eq_zip]
    simp only [namesOf, hget, Member.params]
  rw [opening_fullPlan hc howner, hnames]
  unfold explicitOpening
  simp only [member_mem_constructionTargets hget]

/-- An item of the body is a constructor afterwards exactly if it was one before. -/
theorem constructor?_patchItem {i : Nat} {item : BodyItem} (h : d.body[i]? = some item) :
    (c.fullPlan.patchItem i (item.replacement? o importsSystem) item).constructor? =
      item.constructor?.map c.patchedConstructor := by
  match item with
  | .member (.constructor k) =>
    change some { k with
      params := k.params.map c.fullPlan.stripped
      body := ⟨c.fullPlan.opening (.member i) ++ k.body.stmts⟩ } = _
    rw [opening_member hc h]
    rfl
  | .member (.type n) =>
    -- In place of a type there is a type or a text.
    rw [BodyItem.replacement?_type]
    cases (n.desugarWith o importsSystem Feature.all).result <;> rfl
  | .member (.field _) | .member (.property _) =>
    simp only [Plan.patchItem, Plan.patchMember]
    split <;> rfl
  | .member (.method _) | .member (.raw _) | .statement _ | .comment _ => rfl

/-- The initializer of an item moves exactly if it reads a primary parameter. -/
theorem isMoved_fullPlan {i : Nat} {item : BodyItem} (h : d.body[i]? = some item) :
    c.fullPlan.isMoved i = (c.movedInitializer? item).isSome := by
  unfold Plan.isMoved
  rw [primary_fullPlan hc]
  cases hprimary : d.hasPrimaryConstructor with
  | false =>
    -- No list of moved members, and nothing that could move.
    rw [movedInitializer?_of_primaryParams_eq_nil (primaryParams_of_not_primary hc hprimary)]
    rfl
  | true =>
    have hget : c.declaration.body[i]? = some item := hc ▸ h
    change (c.movedMembers.map Prod.fst).contains i = _
    rw [Bool.eq_iff_iff, List.contains_iff_mem, movedMembers, List.map_filterMap,
      List.mem_filterMap]
    constructor
    · -- The position is listed for the item that stands there.
      rintro ⟨⟨item', j⟩, hmem, hj⟩
      obtain ⟨⟨j', moved⟩, hmoved, rfl⟩ := Option.map_eq_some_iff.mp hj
      obtain ⟨moved', hmoved', heq⟩ := Option.map_eq_some_iff.mp hmoved
      cases heq
      rw [List.mem_zipIdx_iff_getElem?, hget] at hmem
      cases hmem
      exact Option.isSome_of_eq_some hmoved'
    · intro hsome
      obtain ⟨moved, hmoved⟩ := Option.isSome_iff_exists.mp hsome
      exact ⟨(item, i), List.mem_zipIdx_iff_getElem?.mpr hget, by simp [hmoved]⟩

/-- **The new body through a view of its items.** If a view passes over everything that is no
member, and sees of each item that is left a changed version of what it saw before, then it sees the
new members, the changed versions in their order, and the accessor of a singleton. -/
theorem filterMap_body_lowered {α : Type} {view : BodyItem → Option α} {change : α → α}
    (hloose : ∀ text, view (.statement text) = none ∧ view (.comment text) = none)
    (hchange : ∀ i item, d.body[i]? = some item →
      view (c.fullPlan.patchItem i (item.replacement? o importsSystem) item) =
        (view item).map change) :
    (d.lowered o importsSystem).body.filterMap view =
      (c.fullPlan.added c).filterMap (fun m => view (.member m)) ++
        ((d.body.filterMap view).map change ++
          c.fullPlan.accessor.toList.filterMap fun q => view (.member (.property q))) := by
  have hbody := flatMap_body_lowered hc (f := fun item => (view item).toList)
    (g := fun item => ((view item).map change).toList)
    (fun text => by simp [hloose]) fun i item h => by rw [hchange i item h]
  rw [List.map_filterMap]
  simpa only [List.filterMap_eq_flatMap_toList] using hbody

/-- **The constructors of a lowered declaration**: a new one if there has to be one, and those of
the source in their order. -/
theorem constructors_lowered :
    (d.lowered o importsSystem).constructors =
      (if d.getsConstructor o then [c.fullPlan.newConstructor c] else []) ++
        d.constructors.map c.patchedConstructor := by
  have hadded : (c.fullPlan.added c).filterMap (fun m => (BodyItem.member m).constructor?) =
      if d.getsConstructor o then [c.fullPlan.newConstructor c] else [] := by
    rw [← addsConstructor_fullPlan hc]
    unfold Plan.added
    split <;> simp [List.filterMap_append, List.filterMap_map, BodyItem.constructor?]
  have haccessor : c.fullPlan.accessor.toList.filterMap
      (fun q => (BodyItem.member (.property q)).constructor?) = [] := by
    cases c.fullPlan.accessor <;> rfl
  unfold Declaration.constructors
  rw [filterMap_body_lowered hc (fun _ => ⟨rfl, rfl⟩) fun i item h => constructor?_patchItem hc h,
    hadded, haccessor, List.append_nil]

end Lowered

end Context

/-- **The order of statements in constructors.** Of a declaration that is desugared, the bodies of
the constructors are these, in this order, and nothing else.

* If there has to be a new constructor, then its body comes first: the check of a singleton, a check
  for each asserted primary parameter, the unnamed initializer, an assignment for each parameter
  that declares a property, one for each initializer that moves, and one for each parameter that is
  kept in a field. Parameters are taken in the order of the list, members in the order of the body.
* Each constructor of the source keeps its statements. The checks of its own asserted parameters
  stand before them, between the check of a singleton and the unnamed initializer if instances are
  made through it.

The unnamed initializer has one statement for each of its items. -/
theorem constructor_bodies_canonical {o : Options} {importsSystem : Bool} {d d' : Declaration}
    (h : (d.desugarWith o importsSystem Feature.all).result = .baseline d') :
    let c := Context.of o importsSystem d
    let named := d.primaryParams.zip c.paramNames
    d'.constructors.map (·.body.stmts) =
      (if d.getsConstructor o then
        [c.singletonChecks ++ c.assertionChecks named ++ c.initializerStatements ++
          (named.filter fun x => c.isShorthand x.1).map (fun x => .assign x.1.name x.2) ++
          (d.body.filterMap c.movedInitializer?).map
            (fun x => Context.movedAssignment c.paramNames x.1 x.2) ++
          (named.filter fun x => c.isCaptured x.1).map
            (fun x => .assign ("this." ++ x.1.name) x.2)]
      else []) ++
      d.constructors.map (fun k =>
        (if d.isTarget k then c.singletonChecks else []) ++
          c.assertionChecks (k.params.map fun p => (p, p.name)) ++
          (if d.isTarget k then c.initializerStatements else []) ++ k.body.stmts) ∧
    c.initializerStatements.map some =
      (d.body.take (if o.extensions.unnamedInitializer then d.initializerLength else 0)).map
        Context.initializerStatement? := by
  intro c named
  obtain ⟨-, rfl, -⟩ := Declaration.baseline_inv h
  refine ⟨?_, ?_⟩
  · rw [Context.constructors_lowered (rfl : Context.of o importsSystem d = c), List.map_append,
      List.map_map]
    congr 1
    split
    · next hnew =>
      have hbody : (c.fullPlan.newConstructor c).body.stmts = _ :=
        Context.constructorBody_fullPlan rfl hnew
      rw [List.map_singleton, hbody]
      rfl
    · rfl
  · exact Context.map_some_initializerStatements rfl

/-- `class Order(string Name!!, int count)` with a loose statement, a property whose initializer
moves, a method that reads a parameter, and a constructor that calls the implied one. -/
def layeredOrder : Declaration where
  attributes := []
  modifiers := []
  kind := .plain
  singleton := false
  name := "Order"
  typeParams := none
  params := some [
    ⟨[], [], ⟨"string"⟩, "Name", none, some .byMarks, .nowhere⟩,
    ⟨[], [], ⟨"int"⟩, "count", none, none, .nowhere⟩]
  constructorAccess := none
  bases := []
  constraints := []
  source := .made ""
  span := .nowhere
  body := [
    .statement (.made "Check();"),
    .member (.property ⟨[], [], ⟨"int"⟩, "Half", .auto [⟨[], "get"⟩],
      some ⟨"count / 2", .nowhere, 0, ["count"]⟩, .nowhere⟩),
    .member (.method ⟨[], [], ⟨"int"⟩, "Twice", none, [], [],
      .expression ⟨"2 * count", .nowhere, 0, ["count"]⟩, .nowhere⟩),
    .member (.constructor ⟨[], ["public"], "Order",
      [⟨[], [], ⟨"string"⟩, "note", none, some .byAttribute, .nowhere⟩], some "this(note, 1)",
      ⟨[.source (.made "Log();")]⟩, .nowhere⟩)]

theorem constructor_bodies_canonical_layeredOrder :
    ∃ d', (layeredOrder.desugarWith {} true Feature.all).result = .baseline d' ∧
      d'.constructors.map (·.body.stmts) =
        [[.call "ArgumentNullException.ThrowIfNull" ["name", "nameof(name)"],
          .source (.made "Check();"),
          .assign "Name" "name",
          .source ⟨"Half = count / 2;", .nowhere, 0, ["count"]⟩,
          .assign "this.count" "count"],
        [.call "ArgumentNullException.ThrowIfNull" ["note", "nameof(note)"],
          .source (.made "Log();")]] := by
  have h : (layeredOrder.desugarWith {} true Feature.all).result =
      .baseline (layeredOrder.lowered {} true) := rfl
  exact ⟨_, h, (constructor_bodies_canonical h).1.trans (by decide +kernel)⟩

end ClassSugar
