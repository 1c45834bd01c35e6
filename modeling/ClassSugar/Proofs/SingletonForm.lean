import ClassSugar.Proofs.ConstructorBodies

/-!
# The form of a singleton

A declaration that is marked `singleton` gets a field that holds the instance, a property that reads
the field, and a check at the start of its constructor. This module says what the class looks like
afterwards (`Declaration.SingletonForm`), whichever way its header and its body provide the
constructor.

* `Declaration.holderName_spec` — the field has the first name of its list that no member has;
* `Declaration.SingletonReady` — what is known of a singleton that is not refused: of the header and
  the body at most one provides a constructor, and that one is private and takes nothing;
* `Context.exists_instanceConstructors_lowered` — afterwards there is exactly one, and it starts
  with the check.
-/

namespace ClassSugar

/-! ### The name of the holder -/

theorem holderCandidate_injective : ∀ i j, holderCandidate i = holderCandidate j → i = j := by
  -- A number is written with at least one digit, so only the first candidate ends without one.
  have hfirst : ∀ n, holderCandidate 0 ≠ holderCandidate (n + 1) := by
    intro n h
    have hlength := congrArg String.length h
    have hdigits : 0 < (n + 1).repr.length := Nat.length_repr_pos
    simp only [holderCandidate, String.length_append, Nat.toString_eq_repr] at hlength
    omega
  -- The others differ in their numbers, which can be read back from their digits.
  have hothers : ∀ i j, holderCandidate (i + 1) = holderCandidate (j + 1) → i + 1 = j + 1 := by
    intro i j h
    have hdigits : Nat.toDigits 10 (i + 1) = Nat.toDigits 10 (j + 1) := by
      have hnumber : toString (i + 1) = toString (j + 1) := (String.append_right_inj _).mp h
      simpa [Nat.toString_eq_ofList_toDigits] using congrArg String.toList hnumber
    calc
      i + 1 = Nat.ofDigitChars 10 (Nat.toDigits 10 (i + 1)) 0 :=
        Nat.ofDigitChars_ten_toDigits.symm
      _ = Nat.ofDigitChars 10 (Nat.toDigits 10 (j + 1)) 0 := by rw [hdigits]
      _ = j + 1 := Nat.ofDigitChars_ten_toDigits
  rintro (_ | i) (_ | j) h
  · rfl
  · exact absurd h (hfirst j)
  · exact absurd h.symm (hfirst i)
  · exact hothers i j h

namespace Declaration

theorem declaresMember_eq_true {d : Declaration} {name : String} :
    d.declaresMember name = true ↔ name ∈ d.members.filterMap Member.name? := by
  simp [declaresMember]

theorem declaresMember_of_mem {d : Declaration} {m : Member} {name : String} (hm : m ∈ d.members)
    (hname : m.name? = some name) : d.declaresMember name = true :=
  declaresMember_eq_true.mpr (List.mem_filterMap.mpr ⟨m, hm, hname⟩)

/-- **The name of the holder is the first of its list that no member has.** -/
theorem holderName_spec (d : Declaration) :
    ∃ n, d.holderName = holderCandidate n ∧ d.declaresMember (holderCandidate n) = false ∧
      ∀ i < n, d.declaresMember (holderCandidate i) = true := by
  obtain ⟨n, -, hname, hfree, htaken⟩ :=
    firstFree_spec holderCandidate_injective (d.members.filterMap Member.name?) 0
  refine ⟨n, hname, ?_, fun i hi => declaresMember_eq_true.mpr (htaken i (Nat.zero_le i) hi)⟩
  rw [← Bool.not_eq_true, declaresMember_eq_true]
  exact hfree

/-! ### Singletons that are not refused -/

/-- What is known of a singleton that is not refused. -/
structure SingletonReady (d : Declaration) : Prop where
  params : d.primaryParams = []
  access : ∀ a ∈ d.constructorAccess, a = "private"
  /-- The body provides no constructor, or it provides the only one. -/
  constructors : d.instanceConstructors.map Prod.snd = [] ∨
    d.hasPrimaryConstructor = false ∧ ∃ k, d.instanceConstructors.map Prod.snd = [k] ∧
      k.params = [] ∧ k.isPrivate = true
  instanceFree : d.declaresMember instanceName = false

theorem of_singletonHeaderFault?_eq_none {d : Declaration} (h : d.singletonHeaderFault? = none) :
    d.primaryParams = [] ∧ ∀ a ∈ d.constructorAccess, a = "private" := by
  unfold singletonHeaderFault? at h
  split at h
  · cases h
  · next access hparams haccess =>
    refine ⟨hparams, fun a ha => ?_⟩
    rw [haccess, Option.mem_some_iff] at ha
    subst ha
    by_contra hother
    rw [if_neg hother] at h
    cases h
  · next hparams haccess =>
    refine ⟨hparams, fun a ha => ?_⟩
    rw [haccess] at ha
    cases ha

theorem of_constructorFault?_eq_none {d : Declaration} {k : Constructor}
    (h : d.constructorFault? k = none) : k.params = [] ∧ k.isPrivate = true := by
  unfold constructorFault? at h
  split at h
  · cases h
  · next hparams =>
    refine ⟨hparams, ?_⟩
    by_contra haccess
    rw [if_neg haccess] at h
    cases h

theorem of_constructorsFault?_eq_none {d : Declaration} (h : d.constructorsFault? = none) :
    d.instanceConstructors.map Prod.snd = [] ∨
      d.hasPrimaryConstructor = false ∧ ∃ k, d.instanceConstructors.map Prod.snd = [k] ∧
        k.params = [] ∧ k.isPrivate = true := by
  unfold constructorsFault? at h
  dsimp only at h
  match hlist : d.instanceConstructors.map Prod.snd with
  | [] => exact .inl rfl
  | [k] =>
    -- The constructor of the header would be a second one.
    cases hprimary : d.hasPrimaryConstructor with
    | true =>
      rw [hlist, hprimary] at h
      cases h
    | false =>
      rw [hlist, hprimary] at h
      exact .inr ⟨rfl, k, rfl, of_constructorFault?_eq_none h⟩
  | k :: l :: rest =>
    -- Two are too many, whatever the header says.
    rw [hlist, if_pos (by simp only [List.length_cons]; omega)] at h
    cases h

/-- **A singleton that is not refused provides at most one constructor**, which is private and takes
nothing, and leaves the name of the accessor free. -/
theorem singletonReady_of_fault?_eq_none {o : Options} {d : Declaration}
    (hon : o.extensions.singleton = true) (hmark : d.singleton = true) (h : d.fault? o = none) :
    d.SingletonReady := by
  have hfault : d.singletonFault? = none := by
    simp only [fault?, hon, hmark, Bool.and_self, if_true, Option.orElse_eq_orElse,
      Option.orElse_eq_or, Option.or_eq_none_iff] at h
    exact h.2.1
  simp only [singletonFault?, Option.orElse_eq_orElse, Option.orElse_eq_or,
    Option.or_eq_none_iff] at hfault
  obtain ⟨hheader, hconstructors, hinstance⟩ := hfault
  obtain ⟨hparams, haccess⟩ := of_singletonHeaderFault?_eq_none hheader
  refine ⟨hparams, haccess, of_constructorsFault?_eq_none hconstructors, ?_⟩
  by_contra hdeclared
  rw [if_pos (by simpa using hdeclared)] at hinstance
  cases hinstance

end Declaration

/-! ### What becomes of a singleton -/

/-- The field that the item is. -/
def BodyItem.field? : BodyItem → Option Field
  | .member (.field f) => some f
  | _ => none

/-- The fields of a declaration, in order. -/
def Declaration.fields (d : Declaration) : List Field :=
  d.body.filterMap BodyItem.field?

theorem Declaration.mem_fields {d : Declaration} {f : Field} :
    f ∈ d.fields ↔ .field f ∈ d.members := by
  rw [Declaration.mem_members]
  unfold Declaration.fields
  rw [List.mem_filterMap]
  constructor
  · rintro ⟨item, hitem, hf⟩
    unfold BodyItem.field? at hf
    split at hf
    · cases hf
      exact hitem
    · cases hf
  · exact fun h => ⟨.member (.field f), h, rfl⟩

namespace Context

section Singleton

variable {o : Options} {importsSystem : Bool} {d : Declaration} {c : Context}
  (hc : Context.of o importsSystem d = c) (hon : o.extensions.singleton = true)
  (hmark : d.singleton = true)
include hc hon hmark

theorem singletonMarker_eq_true : c.recognition.features.singletonMarker = true := by
  subst hc
  change (o.extensions.singleton && d.singleton) = true
  rw [hon, hmark, Bool.and_self]

/-- The body of a singleton starts with the holder and ends with the accessor. -/
theorem exists_body_lowered_eq :
    ∃ middle, (d.lowered o importsSystem).body =
      .member (.field c.holder) :: (middle ++ [.member (.property c.accessor)]) := by
  have hmarker := singletonMarker_eq_true hc hon hmark
  have hholder : c.fullPlan.holder = some c.holder := if_pos hmarker
  have haccessor : c.fullPlan.accessor = some c.accessor := if_pos hmarker
  rw [body_lowered hc, Plan.added, hholder, haccessor]
  simp only [Option.toList_some, List.map_singleton, List.cons_append, ← List.append_assoc]
  exact ⟨_, rfl⟩

/-- **The holder is the only field that a singleton gets.** Without primary parameters there is
nothing to capture and nothing to move. -/
theorem fields_lowered (hparams : d.primaryParams = []) :
    (d.lowered o importsSystem).fields = c.holder :: d.fields := by
  have hmarker := singletonMarker_eq_true hc hon hmark
  have hholder : c.fullPlan.holder = some c.holder := if_pos hmarker
  have hnone : c.declaration.primaryParams = [] := hc ▸ hparams
  have hcaptures : (c.fullPlan.primary.map PrimaryPlan.captures).getD [] = [] := by
    rw [primary_fullPlan hc]
    cases d.hasPrimaryConstructor with
    | false => rfl
    | true =>
      change c.captured.map (fun x => captureField x.1) = []
      rw [captured, hnone]
      rfl
  have hchange : ∀ i item, d.body[i]? = some item →
      (c.fullPlan.patchItem i (item.replacement? o importsSystem) item).field? =
        item.field?.map id := by
    intro i item hget
    -- A field is left as it is, because no initializer moves.
    have hstays : c.fullPlan.isMoved i = false := by
      rw [isMoved_fullPlan hc hget, movedInitializer?_of_primaryParams_eq_nil hnone]
      rfl
    match item with
    | .member (.field _) | .member (.property _) =>
      simp only [Plan.patchItem, Plan.patchMember, hstays]
      rfl
    | .member (.type n) =>
      rw [BodyItem.replacement?_type]
      cases (n.desugarWith o importsSystem Feature.all).result <;> rfl
    | .member (.constructor _) | .member (.method _) | .member (.raw _) | .statement _
    | .comment _ => rfl
  have hadded : (c.fullPlan.added c).filterMap (fun m => (BodyItem.member m).field?) =
      [c.holder] := by
    unfold Plan.added
    rw [hholder, hcaptures]
    split <;> simp [List.filterMap_append, List.filterMap_map, BodyItem.field?]
  have haccessor : c.fullPlan.accessor.toList.filterMap
      (fun q => (BodyItem.member (.property q)).field?) = [] := by
    cases c.fullPlan.accessor <;> rfl
  unfold Declaration.fields
  rw [filterMap_body_lowered hc (fun _ => ⟨rfl, rfl⟩) hchange, hadded, haccessor,
    List.append_nil, List.map_id, List.singleton_append]

/-- A new constructor of a singleton is private, whether its header says so or says nothing. -/
theorem modifiers_newConstructor (haccess : ∀ a ∈ d.constructorAccess, a = "private") :
    (c.fullPlan.newConstructor c).modifiers = ["private"] := by
  have hdefault : c.defaultAccess = "private" := if_pos (singletonMarker_eq_true hc hon hmark)
  have hheader : d.constructorAccess.getD c.defaultAccess = "private" := by
    cases h : d.constructorAccess with
    | none => exact hdefault
    | some access => exact haccess access h
  have haccess : (c.fullPlan.primary.map PrimaryPlan.access).getD c.defaultAccess = "private" := by
    rw [primary_fullPlan hc]
    cases d.hasPrimaryConstructor with
    | false => exact hdefault
    | true =>
      rw [if_pos rfl, Option.map_some, Option.getD_some]
      subst hc
      exact hheader
  change Text.words ((c.fullPlan.primary.map PrimaryPlan.access).getD c.defaultAccess) = _
  rw [haccess]
  decide

/-- **A singleton has one instance constructor**, unless it provides one that calls itself: that one
is private, takes nothing and starts with the check. -/
theorem exists_instanceConstructors_lowered (hready : d.SingletonReady)
    (hroot : ∀ k ∈ d.constructors, k.isStatic = false → k.chainsToThis = false) :
    ∃ k, (d.lowered o importsSystem).instanceConstructors.map Prod.snd = [k] ∧
      k.params = [] ∧ k.isPrivate = true ∧ k.body.stmts.head? = some c.singletonGuard := by
  have hmarker := singletonMarker_eq_true hc hon hmark
  have hchecks : c.singletonChecks = [c.singletonGuard] := if_pos hmarker
  have hconstructors := hready.constructors
  rw [Declaration.map_snd_instanceConstructors] at hconstructors ⊢
  rw [constructors_lowered hc, List.filter_append, List.filter_map]
  change ∃ k, _ ++ (d.constructors.filter fun k => !k.isStatic).map c.patchedConstructor = [k] ∧ _
  rcases hconstructors with hnone | ⟨hprimary, k, hone, hparams, hprivate⟩
  · -- All constructors of the body are static: there is a new one.
    have hgets : d.getsConstructor o = true := by
      have hstatic : (d.constructors.all fun k => !k.isRoot) = true := by
        rw [List.all_eq_true]
        intro k hk
        have hk : k.isStatic = true := by simpa using List.filter_eq_nil_iff.mp hnone k hk
        simp [Constructor.isRoot, hk]
      unfold Declaration.getsConstructor
      rw [hstatic, hon, hmark]
      simp
    have hmodifiers := modifiers_newConstructor hc hon hmark hready.access
    refine ⟨c.fullPlan.newConstructor c, ?_, ?_, ?_, ?_⟩
    · rw [hnone, hgets, if_pos rfl]
      simp [Constructor.isStatic, hmodifiers]
    · change c.fullPlan.constructorParams c = []
      unfold Plan.constructorParams
      rw [show c.declaration.primaryParams = [] from hc ▸ hready.params]
      rfl
    · simp [Constructor.isPrivate, hmodifiers]
    · change c.fullPlan.constructorBody.head? = _
      rw [constructorBody_fullPlan hc hgets, hchecks]
      simp
  · -- The one constructor of the body is not static and calls no other: it stays the only one.
    have hmem : k ∈ d.constructors ∧ k.isStatic = false := by
      have hk : k ∈ d.constructors.filter fun k => !k.isStatic := by
        rw [hone]
        exact List.mem_singleton_self k
      simpa using hk
    have hisRoot : k.isRoot = true := by
      simp [Constructor.isRoot, hmem.2, hroot k hmem.1 hmem.2]
    have hgets : d.getsConstructor o = false := by
      have hnot : (d.constructors.all fun k => !k.isRoot) = false := by
        rw [List.all_eq_false]
        exact ⟨k, hmem.1, by simp [hisRoot]⟩
      unfold Declaration.getsConstructor
      rw [hprimary, hnot]
      rfl
    have htarget : c.declaration.isTarget k = true := by
      subst hc
      change (!d.hasPrimaryConstructor && k.isRoot) = true
      rw [hprimary, hisRoot]
      rfl
    refine ⟨c.patchedConstructor k, ?_, ?_, hprivate, ?_⟩
    · rw [hone, hgets]
      rfl
    · change k.params.map c.fullPlan.stripped = []
      rw [hparams, List.map_nil]
    · change (c.explicitOpening k ++ k.body.stmts).head? = _
      unfold explicitOpening
      rw [if_pos htarget, hchecks]
      rfl

end Singleton

end Context

/-! ### The form -/

/-- What a singleton `d` looks like once it is desugared to `d'`: which field holds the instance,
which constructor makes it, and which property it is reached through. -/
structure Declaration.SingletonForm (d d' : Declaration) (holder : Field) (k : Constructor)
    (accessor : Property) : Prop where
  /-- There is one constructor for instances. -/
  constructors : d'.instanceConstructors.map Prod.snd = [k]
  params : k.params = []
  isPrivate : k.isPrivate = true
  /-- Nothing runs before the check that there is no instance yet. -/
  guarded : ∃ exception args, k.body.stmts.head? =
    some (.throwIf (holder.name ++ ".IsValueCreated") exception args)
  /-- The holder stands first, it is the only new field, and no other field has its name. -/
  holderFirst : d'.body.head? = some (.member (.field holder))
  fields : d'.fields = holder :: d.fields
  holderOnce : (d'.fields.filter fun f => f.name == holder.name) = [holder]
  holderModifiers : holder.modifiers = ["private", "static", "readonly"]
  holderValue : holder.initializer = some (.made
    ("new " ++ holder.ty.text ++ "(() => new " ++ d.selfType ++ "(), true)"))
  /-- The holder has the first name of its list that no member has. -/
  holderName : ∃ n, holder.name = holderCandidate n ∧
    ∀ i < n, d.declaresMember (holderCandidate i) = true
  holderFree : d.declaresMember holder.name = false
  /-- The accessor stands last. -/
  accessorLast : d'.body.getLast? = some (.member (.property accessor))
  accessorModifiers : accessor.modifiers = ["public", "static"]
  accessorName : accessor.name = "Instance"
  accessorType : accessor.ty.text = d.selfType
  accessorBody : accessor.body = .expression (.made (holder.name ++ ".Value"))
  accessorFree : d.declaresMember "Instance" = false

/-- **A singleton that is desugared has the form of one**, whether its constructor comes from its
header, from its body or from neither. Only a constructor that calls another one of the class
through `this` is left out: as the only one it would call itself. -/
theorem singleton_takes_form {o : Options} {importsSystem : Bool} {d d' : Declaration}
    (hon : o.extensions.singleton = true) (hmark : d.singleton = true)
    (hroot : ∀ k ∈ d.constructors, k.isStatic = false → k.chainsToThis = false)
    (h : (d.desugarWith o importsSystem Feature.all).result = .baseline d') :
    ∃ holder k accessor, d.SingletonForm d' holder k accessor := by
  obtain ⟨hfault, rfl, -⟩ := Declaration.baseline_inv h
  obtain ⟨c, hc⟩ : ∃ c, Context.of o importsSystem d = c := ⟨_, rfl⟩
  have hready := Declaration.singletonReady_of_fault?_eq_none hon hmark hfault
  obtain ⟨k, hk, hparams, hprivate, hguard⟩ :=
    Context.exists_instanceConstructors_lowered hc hon hmark hready hroot
  obtain ⟨middle, hbody⟩ := Context.exists_body_lowered_eq hc hon hmark
  have hfields := Context.fields_lowered hc hon hmark hready.params
  have hname : c.holder.name = d.holderName := hc ▸ rfl
  obtain ⟨n, hcandidate, hfree, htaken⟩ := d.holderName_spec
  rw [← hcandidate, ← hname] at hfree
  -- A field of the source with the name of the holder would have made the search go on.
  have hothers : (d.fields.filter fun f => f.name == c.holder.name) = [] := by
    rw [List.filter_eq_nil_iff]
    intro f hf heq
    have hdeclared : d.declaresMember c.holder.name = true :=
      Declaration.declaresMember_of_mem (Declaration.mem_fields.mp hf)
        (congrArg some (by simpa using heq))
    rw [hfree] at hdeclared
    cases hdeclared
  refine ⟨c.holder, k, c.accessor, ?_⟩
  exact {
    constructors := hk
    params := hparams
    isPrivate := hprivate
    guarded := ⟨_, _, hguard⟩
    holderFirst := by rw [hbody, List.head?_cons]
    fields := hfields
    holderOnce := by rw [hfields, List.filter_cons_of_pos (by simp), hothers]
    holderModifiers := rfl
    holderValue := hc ▸ rfl
    holderName := ⟨n, hname.trans hcandidate, htaken⟩
    holderFree := hfree
    accessorLast := by rw [hbody, ← List.cons_append, List.getLast?_concat]
    accessorModifiers := rfl
    accessorName := rfl
    accessorType := hc ▸ rfl
    accessorBody := rfl
    accessorFree := hready.instanceFree }

/-- `singleton class Cache : Store(1)` with a loose statement, a field that has the first name for
the holder, and a static constructor. -/
def crowdedCache : Declaration where
  attributes := []
  modifiers := ["public"]
  kind := .plain
  singleton := true
  name := "Cache"
  typeParams := none
  params := none
  constructorAccess := none
  bases := [⟨"Store", some "1"⟩]
  constraints := []
  source := .made ""
  span := .nowhere
  body := [
    .statement (.made "Warm();"),
    .member (.field ⟨[], [], ⟨"int"⟩, "_lazyInstance", none, .nowhere⟩),
    .member (.constructor ⟨[], ["static"], "Cache", [], none, ⟨[]⟩, .nowhere⟩)]

theorem singleton_takes_form_crowdedCache :
    ∃ d', (crowdedCache.desugarWith {} true Feature.all).result = .baseline d' ∧
      (∃ holder k accessor, crowdedCache.SingletonForm d' holder k accessor) ∧
      d'.fields.map Field.name = ["_lazyInstance1", "_lazyInstance"] := by
  have h : (crowdedCache.desugarWith {} true Feature.all).result =
      .baseline (crowdedCache.lowered {} true) := rfl
  exact ⟨_, h, singleton_takes_form rfl rfl (by decide) h, by decide +kernel⟩

end ClassSugar
