import ClassSugar.Proofs.Settled

/-!
# A nested type does not show outside

A declaration is recognized, planned and assembled by scans over its whole body: for members that
have a name already, for constructors, for asserted parameters, for readers of a parameter, for the
first member. None of them looks into a nested type. So two declarations that differ only inside a
nested type, and agree on its name, are desugared alike around it.

The argument compares a declaration with its *hollow* form (`Declaration.hollow`), in which nothing
is left of a nested type but its name. Each scan gives the same on both, hence so do recognition
(`Declaration.recognize_hollow`) and planning (`Context.plan_hollow`); and declarations that differ
inside nested types only have the same hollow form.
-/

namespace ClassSugar

/-! ### Hollow bodies -/

/-- A type of which nothing is left but its name. -/
def Declaration.stub (name : String) : Declaration where
  toHeader := { (default : Header) with name }
  body := []

/-- A member with the inside of a nested type taken out. -/
def Member.hollow : Member → Member
  | .type n => .type (.stub n.name)
  | m => m

/-- An item with the inside of a nested type taken out. -/
def BodyItem.hollow : BodyItem → BodyItem
  | .member m => .member m.hollow
  | item => item

/-- A declaration with the inside of all nested types taken out. -/
def Declaration.hollow (d : Declaration) : Declaration :=
  { d with body := d.body.map BodyItem.hollow }

namespace Member

variable (m : Member)

@[simp] theorem name?_hollow : m.hollow.name? = m.name? := by
  cases m <;> rfl

@[simp] theorem params_hollow : m.hollow.params = m.params := by
  cases m <;> rfl

@[simp] theorem reads_hollow (name : String) : m.hollow.reads name = m.reads name := by
  cases m <;> rfl

@[simp] theorem assertionFault?_hollow (nullableContext : Bool) :
    m.hollow.assertionFault? nullableContext = m.assertionFault? nullableContext := by
  cases m <;> rfl

@[simp] theorem instanceInitializer?_hollow :
    Context.instanceInitializer? m.hollow = Context.instanceInitializer? m := by
  cases m <;> rfl

end Member

namespace BodyItem

variable (item : BodyItem)

@[simp] theorem isMember_hollow : item.hollow.isMember = item.isMember := by
  cases item <;> rfl

@[simp] theorem isStatement_hollow : item.hollow.isStatement = item.isStatement := by
  cases item <;> rfl

@[simp] theorem member?_hollow : item.hollow.member? = item.member?.map Member.hollow := by
  cases item <;> rfl

@[simp] theorem instanceConstructor?_hollow :
    item.hollow.instanceConstructor? = item.instanceConstructor? := by
  match item with
  | .member (.field _) | .member (.property _) | .member (.constructor _) | .member (.method _)
  | .member (.type _) | .member (.raw _) | .statement _ | .comment _ => rfl

@[simp] theorem initializerStatement?_hollow :
    Context.initializerStatement? item.hollow = Context.initializerStatement? item := by
  cases item <;> rfl

/-- A scan that is blind to the inside of nested types, with positions. -/
theorem filterMap_zipIdx_hollow {α : Type} {scan : BodyItem × Nat → Option α}
    (h : ∀ item i, scan (item.hollow, i) = scan (item, i)) (body : List BodyItem) :
    (body.map hollow).zipIdx.filterMap scan = body.zipIdx.filterMap scan := by
  rw [List.zipIdx_map, List.filterMap_map]
  exact List.filterMap_congr fun x _ => h x.1 x.2

end BodyItem

namespace Declaration

variable (d : Declaration)

theorem members_hollow : d.hollow.members = d.members.map Member.hollow := by
  unfold members hollow
  rw [List.filterMap_map, List.map_filterMap]
  simp only [Function.comp_def, BodyItem.member?_hollow]

@[simp] theorem declaresMember_hollow (name : String) :
    d.hollow.declaresMember name = d.declaresMember name := by
  unfold declaresMember
  rw [members_hollow, List.any_map]
  simp only [Function.comp_def, Member.name?_hollow]

@[simp] theorem holderName_hollow : d.hollow.holderName = d.holderName := by
  unfold holderName
  rw [members_hollow, List.filterMap_map]
  simp only [Function.comp_def, Member.name?_hollow]

@[simp] theorem firstMemberIndex_hollow : d.hollow.firstMemberIndex = d.firstMemberIndex := by
  unfold firstMemberIndex hollow
  rw [List.findIdx_map]
  simp only [Function.comp_def, BodyItem.isMember_hollow]

@[simp] theorem initializerLength_hollow : d.hollow.initializerLength = d.initializerLength := by
  unfold initializerLength
  rw [firstMemberIndex_hollow]
  unfold hollow
  rw [← List.map_take, ← List.map_reverse, List.dropWhile_map, List.length_map]
  simp only [Function.comp_def, BodyItem.isStatement_hollow]

theorem looseStatements_map_hollow (items : List BodyItem) :
    looseStatements (items.map BodyItem.hollow) = looseStatements items := by
  unfold looseStatements
  rw [List.filterMap_map]
  congr 1
  funext item
  cases item <;> rfl

@[simp] theorem initializerLints_hollow (shorthand : List Nat) (initializerEnd : Nat) :
    d.hollow.initializerLints shorthand initializerEnd =
      d.initializerLints shorthand initializerEnd := by
  unfold initializerLints
  rw [firstMemberIndex_hollow]
  change List.flatMap _ (looseStatements ((d.body.map BodyItem.hollow).take _)) ++
    List.map _ (looseStatements ((d.body.map BodyItem.hollow).drop _)) = _
  rw [← List.map_take, ← List.map_drop, looseStatements_map_hollow, looseStatements_map_hollow]
  rfl

@[simp] theorem instanceConstructors_hollow :
    d.hollow.instanceConstructors = d.instanceConstructors := by
  refine BodyItem.filterMap_zipIdx_hollow (fun item i => ?_) d.body
  dsimp only
  rw [BodyItem.instanceConstructor?_hollow]

@[simp] theorem nullSites_hollow : d.hollow.nullSites = d.nullSites := by
  have howners : d.hollow.paramOwners = d.paramOwners := by
    refine congrArg (_ :: ·) (BodyItem.filterMap_zipIdx_hollow (fun item i => ?_) d.body)
    dsimp only
    rw [BodyItem.member?_hollow, Option.map_map]
    simp only [Function.comp_def, Member.params_hollow]
  unfold nullSites
  rw [howners]

/-! ### Recognition -/

theorem shorthandFault?_hollow (shorthand : List Nat) :
    d.hollow.shorthandFault? shorthand = d.shorthandFault? shorthand := by
  unfold shorthandFault?
  simp only [declaresMember_hollow]
  rfl

theorem singletonFault?_hollow : d.hollow.singletonFault? = d.singletonFault? := by
  have hconstructors : d.hollow.constructorsFault? = d.constructorsFault? := by
    unfold constructorsFault?
    rw [instanceConstructors_hollow]
    rfl
  unfold singletonFault?
  rw [hconstructors, declaresMember_hollow]
  rfl

theorem assertionFault?_hollow (nullableContext : Bool) :
    d.hollow.assertionFault? nullableContext = d.assertionFault? nullableContext := by
  unfold assertionFault?
  rw [members_hollow, List.findSome?_map]
  simp only [Function.comp_def, Member.assertionFault?_hollow]
  rfl

/-- **Recognition does not look into nested types.** -/
theorem recognize_hollow (o : Options) : d.hollow.recognize o = d.recognize o := by
  have hfault : d.hollow.fault? o = d.fault? o := by
    unfold fault?
    rw [shorthandFault?_hollow, singletonFault?_hollow, assertionFault?_hollow]
    rfl
  have hrecognition : d.hollow.recognition o = d.recognition o := by
    unfold recognition
    rw [initializerLength_hollow, nullSites_hollow]
    simp only [initializerLints_hollow]
    rfl
  unfold recognize
  rw [hfault, hrecognition]

end Declaration

/-! ### Plans -/

namespace Context

variable (c : Context)

/-- What a rule may look at, with the inside of nested types taken out. -/
def hollow : Context :=
  { c with declaration := c.declaration.hollow }

theorem declaration_hollow : c.hollow.declaration = c.declaration.hollow := rfl

theorem constructionTargets_hollow : c.hollow.constructionTargets = c.constructionTargets := by
  unfold constructionTargets
  rw [declaration_hollow, Declaration.instanceConstructors_hollow]
  rfl

theorem namesOf_hollow (t : Target) : c.hollow.namesOf t = c.namesOf t := by
  cases t with
  | constructor => rfl
  | member i =>
    have hget : c.hollow.declaration.body[i]? = c.declaration.body[i]?.map BodyItem.hollow :=
      List.getElem?_map
    simp only [namesOf, hget]
    -- A member has its parameters in the hollow form too, and a type has none in either.
    cases c.declaration.body[i]? with
    | none => rfl
    | some item =>
      cases item with
      | member m => exact congrArg (List.map Parameter.name) m.params_hollow
      | statement _ | comment _ => rfl

theorem initializerStatements_hollow :
    c.hollow.initializerStatements = c.initializerStatements := by
  have hread : c.hollow.initializerStatements =
      ((c.declaration.body.map BodyItem.hollow).take c.recognition.initializerEnd).filterMap
        initializerStatement? := rfl
  rw [hread, ← List.map_take, List.filterMap_map]
  simp only [Function.comp_def, BodyItem.initializerStatement?_hollow]
  rfl

theorem movedInitializer?_hollow (item : BodyItem) :
    c.hollow.movedInitializer? item.hollow = c.movedInitializer? item := by
  cases item with
  | member m =>
    have hmember : (BodyItem.member m).hollow.member?.bind instanceInitializer? =
        instanceInitializer? m := m.instanceInitializer?_hollow
    unfold movedInitializer?
    rw [hmember]
    rfl
  | statement _ | comment _ => rfl

theorem movedMembers_hollow : c.hollow.movedMembers = c.movedMembers := by
  have hread : c.hollow.movedMembers =
      (c.declaration.body.map BodyItem.hollow).zipIdx.filterMap fun x =>
        (c.hollow.movedInitializer? x.1).map (x.2, ·) := rfl
  rw [hread, List.zipIdx_map, List.filterMap_map]
  refine List.filterMap_congr fun x _ => ?_
  exact congrArg (Option.map (x.2, ·)) (c.movedInitializer?_hollow x.1)

theorem any_stayingMembers_hollow (name : String) :
    c.hollow.stayingMembers.any (Member.reads name) = c.stayingMembers.any (Member.reads name) := by
  have hmembers : c.hollow.stayingMembers = c.stayingMembers.map Member.hollow := by
    have hread : c.hollow.stayingMembers =
        ((c.declaration.body.map BodyItem.hollow).filter fun item =>
          (c.hollow.movedInitializer? item).isNone).filterMap BodyItem.member? := rfl
    unfold stayingMembers at hread ⊢
    rw [hread, List.filter_map, List.filterMap_map, List.map_filterMap]
    simp only [Function.comp_def, BodyItem.member?_hollow, movedInitializer?_hollow]
  rw [hmembers, List.any_map]
  simp only [Function.comp_def, Member.reads_hollow]

theorem primaryPlan_hollow : c.hollow.primaryPlan = c.primaryPlan := by
  have hcaptured : c.hollow.captured = c.captured := by
    unfold captured
    simp only [any_stayingMembers_hollow, declaration_hollow, Declaration.declaresMember_hollow]
    rfl
  have hmoved : c.hollow.movedAssignments = c.movedAssignments := by
    unfold movedAssignments
    rw [movedMembers_hollow]
    rfl
  unfold primaryPlan
  rw [hcaptured, movedMembers_hollow, hmoved]
  rfl

/-- A rule fills its slots from what it sees outside nested types. -/
theorem applyRule_hollow (p : Plan) (f : Feature) : c.hollow.applyRule p f = c.applyRule p f := by
  cases f with
  | singletonMarker =>
    have hname : c.hollow.declaration.holderName = c.declaration.holderName :=
      c.declaration.holderName_hollow
    simp only [applyRule, holder, accessor, singletonGuard, hname, constructionTargets_hollow]
    rfl
  | nullAssertion =>
    simp only [applyRule, nullGuards, namesOf_hollow]
    rfl
  | unnamedInitializer =>
    simp only [applyRule, constructionTargets_hollow, initializerStatements_hollow]
    rfl
  | propertyShorthand => rfl
  | primaryConstructor => simp only [applyRule, primaryPlan_hollow]

/-- **Planning does not look into nested types.** -/
theorem plan_hollow (rules : List Feature) : c.hollow.plan rules = c.plan rules := by
  have hrule : c.hollow.applyRule = c.applyRule := by
    funext p f
    exact c.applyRule_hollow p f
  unfold plan
  rw [hrule]
  rfl

/-- A plan consumes at most the unnamed initializer. -/
theorem consumed_le_of_plan {c : Context} {rules : List Feature} {p : Plan}
    (h : c.plan rules = .ok p) : p.consumed ≤ c.recognition.initializerEnd := by
  -- Each rule leaves the number of consumed items alone or sets it to that of the initializer.
  have hstep : ∀ (p : Plan) (f : Feature), p.consumed ≤ c.recognition.initializerEnd →
      (c.applyRule p f).consumed ≤ c.recognition.initializerEnd := by
    intro p f hp
    cases f with
    | unnamedInitializer => exact Nat.le_refl _
    | singletonMarker | nullAssertion | propertyShorthand | primaryConstructor => exact hp
  have hrun : ∀ (fs : List Feature) (p : Plan), p.consumed ≤ c.recognition.initializerEnd →
      (fs.foldl c.applyRule p).consumed ≤ c.recognition.initializerEnd := by
    intro fs
    induction fs with
    | nil => exact fun p hp => hp
    | cons f fs ih => exact fun p hp => ih _ (hstep p f hp)
  unfold plan at h
  split at h
  · cases h
  · cases h
    exact hrun _ {} (Nat.zero_le _)

end Context

/-! ### Around a nested type -/

/-- The outcome for a declaration, with a place left open in each part for one nested type. -/
structure Surroundings where
  header : Header
  before : List BodyItem
  after : List BodyItem
  diagnosticsBefore : List Diagnostic
  diagnosticsAfter : List Diagnostic
  reportsBefore : List DeclarationReport
  reportsAfter : List DeclarationReport

/-- The outcome for the whole declaration, given the outcome for the nested type. -/
def Surroundings.around (s : Surroundings) (inner : Outcome Desugared) : Outcome Desugared where
  result := .baseline ⟨s.header, s.before ++ .member inner.result.toMember :: s.after⟩
  diagnostics := s.diagnosticsBefore ++ inner.diagnostics ++ s.diagnosticsAfter
  reports := s.reportsBefore ++ inner.reports ++ s.reportsAfter

namespace Context

variable (c : Context) (rules : List Feature)

/-- The outcome for an item of a body, if it is a type. -/
def outcomeOf (item : BodyItem) : Outcome (Option Desugared) :=
  item.desugarType c.options c.importsSystem rules

/-- What takes the place of an item of a body, if it is a type. -/
def replacementOf (item : BodyItem) : Option Member :=
  (c.outcomeOf rules item).result.map Desugared.toMember

theorem outcomeOf_type (n : Declaration) :
    c.outcomeOf rules (.member (.type n)) =
      (n.desugarWith c.options c.importsSystem rules).map some :=
  BodyItem.desugarType_type c.options c.importsSystem rules n

theorem replacementOf_type (n : Declaration) :
    c.replacementOf rules (.member (.type n)) =
      some (n.desugarWith c.options c.importsSystem rules).result.toMember := by
  unfold replacementOf
  rw [outcomeOf_type]
  rfl

/-- Carrying out a plan, item by item. -/
theorem carryOut_eq (p : Plan) :
    Declaration.carryOut c p
        (BodyItem.desugarNested c.options c.importsSystem rules c.declaration.body) =
      { result := .baseline ⟨(p.assemble c []).toHeader,
          p.assembleBody c (c.declaration.body.map (c.replacementOf rules))⟩
        diagnostics := c.recognition.diagnostics ++
          c.declaration.body.flatMap fun item => (c.outcomeOf rules item).diagnostics
        reports := ⟨c.declaration.name, c.recognition.features, true, c.declaration.span⟩ ::
          c.declaration.body.flatMap fun item => (c.outcomeOf rules item).reports } := by
  unfold Declaration.carryOut
  rw [BodyItem.desugarNested_eq_map, List.map_map, List.flatMap_map, List.flatMap_map]
  rfl

end Context

namespace Plan

variable (p : Plan) (c : Context) (rules : List Feature) (before after : List BodyItem)

/-- An item of the body as the plan leaves it, given with its position. -/
def leftOf (x : BodyItem × Nat) : BodyItem :=
  p.patchItem x.2 (c.replacementOf rules x.1) x.1

/-- What a plan makes of a declaration around a nested type that stands between given items. -/
def surroundings : Surroundings where
  header := (p.assemble c []).toHeader
  before := (p.added c).map .member ++ (before.zipIdx.drop p.consumed).map (p.leftOf c rules)
  after := (after.zipIdx (before.length + 1)).map (p.leftOf c rules) ++
    (p.accessor.toList.map .property).map .member
  diagnosticsBefore := c.recognition.diagnostics ++
    before.flatMap fun item => (c.outcomeOf rules item).diagnostics
  diagnosticsAfter := after.flatMap fun item => (c.outcomeOf rules item).diagnostics
  reportsBefore := ⟨c.declaration.name, c.recognition.features, true, c.declaration.span⟩ ::
    before.flatMap fun item => (c.outcomeOf rules item).reports
  reportsAfter := after.flatMap fun item => (c.outcomeOf rules item).reports

/-- The surroundings are seen without looking into nested types. -/
theorem surroundings_hollow :
    p.surroundings c.hollow rules before after = p.surroundings c rules before after :=
  rfl

variable {p c before after} {n : Declaration}
  (hbody : c.declaration.body = before ++ .member (.type n) :: after)
include hbody

/-- What is left of the body, around a nested type that is not consumed. -/
theorem remainingBody_around (hconsumed : p.consumed ≤ before.length) :
    p.remainingBody c.declaration.body (c.declaration.body.map (c.replacementOf rules)) =
      (before.zipIdx.drop p.consumed).map (p.leftOf c rules) ++
        .member (n.desugarWith c.options c.importsSystem rules).result.toMember ::
          (after.zipIdx (before.length + 1)).map (p.leftOf c rules) := by
  -- In the place of the type stands what it was desugared to.
  have hplace : p.leftOf c rules (.member (.type n), before.length) =
      .member (n.desugarWith c.options c.importsSystem rules).result.toMember := by
    unfold leftOf
    rw [c.replacementOf_type rules n]
    rfl
  have hdrop : (before.zipIdx ++ (BodyItem.member (.type n) :: after).zipIdx before.length).drop
      p.consumed = before.zipIdx.drop p.consumed ++
        (BodyItem.member (.type n) :: after).zipIdx before.length := by
    refine List.drop_append_of_le_length ?_
    rw [List.length_zipIdx]
    exact hconsumed
  rw [remainingBody_map, hbody, List.zipIdx_append, Nat.zero_add, hdrop, List.zipIdx_cons,
    List.map_append, List.map_cons, ← hplace]
  rfl

/-- **Carrying out a plan fills the surroundings** of a nested type that is not consumed. -/
theorem carryOut_around (hconsumed : p.consumed ≤ before.length) :
    Declaration.carryOut c p
        (BodyItem.desugarNested c.options c.importsSystem rules c.declaration.body) =
      (p.surroundings c rules before after).around
        (n.desugarWith c.options c.importsSystem rules) := by
  -- The nested type splits every list that is made item by item.
  have hsplit : ∀ {α : Type} (f : BodyItem → List α), c.declaration.body.flatMap f =
      before.flatMap f ++ (f (.member (.type n)) ++ after.flatMap f) := by
    intro α f
    rw [hbody, List.flatMap_append, List.flatMap_cons]
  rw [c.carryOut_eq rules p, assembleBody_eq, remainingBody_around rules hbody hconsumed, hsplit,
    hsplit, c.outcomeOf_type rules n]
  simp only [surroundings, Surroundings.around, Outcome.map, List.append_assoc, List.cons_append]

end Plan

namespace Declaration

/-- The unnamed initializer that is recognized ends before every member. -/
theorem initializerEnd_le_length {o : Options} {d : Declaration} {r : Recognition} {m : Member}
    {before after : List BodyItem} (hr : d.recognize o = .ok r)
    (hbody : d.body = before ++ .member m :: after) : r.initializerEnd ≤ before.length := by
  have hread : r.initializerEnd = if o.extensions.unnamedInitializer then d.initializerLength
      else 0 := by
    unfold recognize at hr
    split at hr
    · cases hr
    · cases hr
      rfl
  have hlength : d.initializerLength ≤ before.length := by
    by_contra hlt
    -- Otherwise the member would stand among the items of the initializer, which has none.
    have hmem : .member m ∈ d.body.take d.initializerLength := by
      obtain ⟨k, hk⟩ : ∃ k, d.initializerLength = before.length + (k + 1) :=
        ⟨d.initializerLength - before.length - 1, by omega⟩
      rw [hbody, hk, List.take_length_add_append, List.take_succ_cons]
      exact List.mem_append_right _ List.mem_cons_self
    cases d.isMember_eq_false_of_mem_take hmem
  rw [hread]
  split
  · exact hlength
  · exact Nat.zero_le _

variable (o : Options) (importsSystem : Bool) (rules : List Feature)

/-- **One frame for all types of a name.** Whatever a declaration has nested at a place, the same is
said and done around it: it is refused in the same way, or the outcome for the nested type is put
into the same surroundings. -/
theorem desugarWith_around (header : Header) (before after : List BodyItem) (name : String) :
    (∃ diagnostic report, ∀ n : Declaration, n.name = name →
      desugarWith o importsSystem rules ⟨header, before ++ .member (.type n) :: after⟩ =
        ⟨.unchanged header.source, [diagnostic], [report]⟩) ∨
    ∃ s : Surroundings, ∀ n : Declaration, n.name = name →
      desugarWith o importsSystem rules ⟨header, before ++ .member (.type n) :: after⟩ =
        s.around (n.desugarWith o importsSystem rules) := by
  -- All these declarations have one hollow form, which decides recognition and plan.
  obtain ⟨form, hform⟩ : ∃ form : Declaration, ∀ n : Declaration, n.name = name →
      hollow ⟨header, before ++ .member (.type n) :: after⟩ = form := by
    refine ⟨hollow ⟨header, before ++ .member (.type (.stub name)) :: after⟩, ?_⟩
    rintro n rfl
    unfold hollow
    rw [List.map_append, List.map_append]
    rfl
  have hrecognize : ∀ n : Declaration, n.name = name →
      recognize ⟨header, before ++ .member (.type n) :: after⟩ o = form.recognize o := by
    intro n hn
    rw [← hform n hn, recognize_hollow]
  have hcontext : ∀ (n : Declaration) (r : Recognition), n.name = name →
      Context.hollow ⟨⟨header, before ++ .member (.type n) :: after⟩, r, o, importsSystem⟩ =
        ⟨form, r, o, importsSystem⟩ := by
    intro n r hn
    rw [← hform n hn]
    rfl
  cases hr : form.recognize o with
  | error refusal =>
    refine .inl ⟨refusal.toDiagnostic header.name, ⟨header.name, .empty, false, header.span⟩, ?_⟩
    intro n hn
    rw [desugarWith, hrecognize n hn, hr]
    rfl
  | ok r =>
    cases hp : Context.plan ⟨form, r, o, importsSystem⟩ rules with
    | error refusal =>
      refine .inl ⟨refusal.toDiagnostic header.name,
        ⟨header.name, r.features, false, header.span⟩, ?_⟩
      intro n hn
      rw [← hcontext n r hn, Context.plan_hollow] at hp
      rw [desugarWith, hrecognize n hn, hr]
      dsimp only
      rw [hp]
      rfl
    | ok p =>
      refine .inr ⟨p.surroundings ⟨form, r, o, importsSystem⟩ rules before after, fun n hn => ?_⟩
      have hconsumed : p.consumed ≤ before.length :=
        (Context.consumed_le_of_plan hp).trans
          (initializerEnd_le_length ((hrecognize n hn).trans hr) rfl)
      rw [← hcontext n r hn, Context.plan_hollow] at hp
      rw [← hcontext n r hn, Plan.surroundings_hollow, desugarWith, hrecognize n hn, hr]
      dsimp only
      rw [hp]
      exact Plan.carryOut_around rules rfl hconsumed

end Declaration

/-- **A nested type is isolated.** Replace a nested type by any other one of the same name. Then
desugaring, with any rules and options, leaves both declarations as written, with the same error
and the same report, or it desugars both: their headers agree, their bodies agree but for the one
item that holds what became of the nested type, and what is said about them agrees but for what is
said about that type. -/
theorem nested_type_isolated (o : Options) (importsSystem : Bool) (rules : List Feature)
    {d n n' : Declaration} {i : Nat} (hn : d.body[i]? = some (.member (.type n)))
    (hname : n'.name = n.name) :
    let d' : Declaration := { d with body := d.body.set i (.member (.type n')) }
    let run := Declaration.desugarWith o importsSystem rules
    (∃ diagnostic report, run d = ⟨.unchanged d.source, [diagnostic], [report]⟩ ∧
      run d' = ⟨.unchanged d.source, [diagnostic], [report]⟩) ∨
    ∃ s : Surroundings, run d = s.around (run n) ∧ run d' = s.around (run n') := by
  obtain ⟨header, body⟩ := d
  obtain ⟨hi, hget⟩ := List.getElem?_eq_some_iff.mp hn
  obtain ⟨before, after, hbody, -, hset⟩ :=
    @List.exists_of_set _ i (BodyItem.member (.type n')) body hi
  have hd : (⟨header, body⟩ : Declaration) = ⟨header, before ++ .member (.type n) :: after⟩ :=
    congrArg (Declaration.mk header) (hget ▸ hbody)
  intro d' run
  have hd' : d' = ⟨header, before ++ .member (.type n') :: after⟩ :=
    congrArg (Declaration.mk header) hset
  rw [hd, hd']
  -- Both declarations have a type of one name between the same items.
  rcases Declaration.desugarWith_around o importsSystem rules header before after n.name with
    ⟨diagnostic, report, hall⟩ | ⟨s, hall⟩
  · exact .inl ⟨diagnostic, report, hall n rfl, hall n' hname⟩
  · exact .inr ⟨s, hall n rfl, hall n' hname⟩

/-- `class Part`, plain, or a singleton that is refused for its parameter. -/
def partType (singleton : Bool) : Declaration where
  attributes := []
  modifiers := []
  kind := .plain
  singleton
  name := "Part"
  typeParams := none
  params := if singleton then some [⟨[], [], ⟨"int"⟩, "size", none, none, .nowhere⟩] else none
  constructorAccess := none
  bases := []
  constraints := []
  source := .made (if singleton then "singleton class Part(int size);" else "class Part;")
  span := .nowhere
  body := []

/-- `class Whole(int size)` with a loose statement, a nested `Part`, a method that reads the
parameter, and a loose statement that comes too late. -/
def wholeType (part : Declaration) : Declaration where
  attributes := []
  modifiers := []
  kind := .plain
  singleton := false
  name := "Whole"
  typeParams := none
  params := some [⟨[], [], ⟨"int"⟩, "size", none, none, .nowhere⟩]
  constructorAccess := none
  bases := []
  constraints := []
  source := .made ""
  span := .nowhere
  body := [
    .statement (.made "Check();"),
    .member (.type part),
    .member (.method ⟨[], [], ⟨"int"⟩, "Twice", none, [], [],
      .expression ⟨"2 * size", .nowhere, 0, ["size"]⟩, .nowhere⟩),
    .statement (.made "Late();")]

/-- A part that is desugared and one that is refused, in the same surroundings. -/
theorem nested_type_isolated_wholeType :
    let run := Declaration.desugarWith {} true Feature.all
    (∃ part, (run (partType false)).result = .baseline part) ∧
      (run (partType true)).result = .unchanged (partType true).source ∧
      ∃ s : Surroundings, run (wholeType (partType false)) = s.around (run (partType false)) ∧
        run (wholeType (partType true)) = s.around (run (partType true)) := by
  intro run
  refine ⟨⟨_, rfl⟩, rfl, ?_⟩
  have hwhole : ((wholeType (partType false)).desugarWith {} true Feature.all).result =
      .baseline ((wholeType (partType false)).lowered {} true) := rfl
  rcases @nested_type_isolated {} true Feature.all (wholeType (partType false)) (partType false)
    (partType true) 1 rfl rfl with ⟨diagnostic, report, hleft, -⟩ | hboth
  · rw [hleft] at hwhole
    cases hwhole
  · exact hboth

end ClassSugar
