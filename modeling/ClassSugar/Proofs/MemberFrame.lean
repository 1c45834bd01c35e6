import ClassSugar.Proofs.NullChecks
import ClassSugar.Proofs.ParameterScope

/-!
# The frame of a desugared declaration

Desugaring puts new members around those of the source, and it changes some of the latter. A plan
knows a member by its position in the body, in lists of positions that four rules have filled, and it
is carried out after the first items of the body are dropped. Here the same is said without positions
and without a plan.

* `Context.becomes` is what is made of a member, read off the member alone. Whatever it does not
  mention stays as it was.
* `Context.impliedConstructor` is the constructor that is added, read off the header and the body.
* `Context.patchItem_fullPlan` — carrying out a full plan at the position of an item does to it what
  `Context.becomes` says.

Together with the new members this gives the whole body, in order (`Context.Frames`).
-/

namespace ClassSugar

namespace Context

/-! ### What is made of a member -/

/-- A parameter without its assertion, if assertions are understood. -/
def unmarked (c : Context) (p : Parameter) : Parameter :=
  { p with nullAssertion :=
      if c.options.extensions.nullAssertion then none else p.nullAssertion }

/-- Whether a method gets checks: some parameter is asserted, and assertions are understood. -/
def isGuarded (c : Context) (m : Method) : Bool :=
  c.options.extensions.nullAssertion && m.params.any (·.nullAssertion.isSome)

/-- The body of a method, behind the checks of its parameters if it gets any. -/
def methodBody (c : Context) (m : Method) : MethodBody :=
  if c.isGuarded m then
    m.body.behind (c.assertionChecks (m.params.map fun p => (p, p.name))) m.returnsNothing
  else m.body

/-- What is made of a member. Parameters lose their assertions, a constructor gets statements before
its own, a method gets its checks, an initializer that moves is gone, and a nested type is desugared
by itself. -/
def becomes (c : Context) : Member → Member
  | .field f => .field { f with
      initializer := if c.declaration.movesInitializer (.field f) then none else f.initializer }
  | .property q => .property { q with
      initializer := if c.declaration.movesInitializer (.property q) then none else q.initializer }
  | .constructor k => .constructor { k with
      params := k.params.map c.unmarked
      body := ⟨c.explicitOpening k ++ k.body.stmts⟩ }
  | .method m => .method { m with
      params := m.params.map c.unmarked
      body := c.methodBody m }
  | .type n => (n.desugarWith c.options c.importsSystem Feature.all).result.toMember
  | .raw code => .raw code

/-- What is made of an item of the body. Statements and comments stay as they are. -/
def itemBecomes (c : Context) : BodyItem → BodyItem
  | .member m => .member (c.becomes m)
  | .statement code => .statement code
  | .comment text => .comment text

/-- The constructor that is added. -/
def impliedConstructor (c : Context) : Constructor where
  attributes := []
  modifiers := Text.words (c.declaration.constructorAccess.getD c.defaultAccess)
  name := c.declaration.name
  params := c.namedParams.map fun x => { c.unmarked x.1 with name := x.2 }
  initializer := c.baseCall
  body := ⟨c.singletonChecks ++ c.assertionChecks c.namedParams ++ c.initializerStatements ++
    (c.namedParams.filter fun x => c.isShorthand x.1).map (fun x => .assign x.1.name x.2) ++
    c.movedAssignments ++
    (c.namedParams.filter fun x => c.isCaptured x.1).map
      (fun x => .assign ("this." ++ x.1.name) x.2)⟩
  span := .nowhere

section Patched

variable {o : Options} {importsSystem : Bool} {d : Declaration} {c : Context}
  (hc : Context.of o importsSystem d = c)
include hc

/-- **Taking out the assertions of a declaration** changes no parameter of another one: a plan that
leaves them in finds none that it understands. -/
theorem stripped_fullPlan {p : Parameter}
    (hp : p ∈ d.primaryParams ∨ ∃ m ∈ d.members, p ∈ m.params) :
    c.fullPlan.stripped p = c.unmarked p := by
  have hoptions : c.options = o := hc ▸ rfl
  unfold Plan.stripped unmarked
  rw [hoptions]
  by_cases hon : o.extensions.nullAssertion = true
  · rw [if_pos hon]
    split
    · rfl
    · next hkept =>
      -- No assertion was found, so there is none to take out.
      have hfree : d.MarkFree := by
        rw [← hc] at hkept
        exact (stripNullMarkers_fullPlan o importsSystem d hon).resolve_left hkept
      have hnone : p.nullAssertion = none := by
        rcases hp with hheader | ⟨m, hm, hmember⟩
        · exact hfree.header p hheader
        · exact hfree.members m hm p hmember
      rw [← hnone]
  · rw [if_neg hon]
    have hkept : c.fullPlan.stripNullMarkers = false := by
      rw [← hc]
      show (!(if o.extensions.nullAssertion then d.nullSites else []).isEmpty) = false
      rw [if_neg hon]
      rfl
    rw [hkept]
    rfl

theorem map_stripped_fullPlan {m : Member} (hm : m ∈ d.members) :
    m.params.map c.fullPlan.stripped = m.params.map c.unmarked := by
  apply List.map_congr_left
  intro p hp
  exact stripped_fullPlan hc (.inr ⟨m, hm, hp⟩)

/-- A method finds its own checks, and nothing where assertions are not understood. -/
theorem guardedBody_eq_methodBody {i : Nat} {m : Method}
    (h : d.body[i]? = some (.member (.method m))) :
    c.fullPlan.guardedBody i m = c.methodBody m := by
  have hoptions : c.options = o := hc ▸ rfl
  unfold methodBody isGuarded
  rw [hoptions]
  by_cases hon : o.extensions.nullAssertion = true
  · rw [guardedBody_fullPlan hc hon h, hon, Bool.true_and]
    show (if (Parameter.asserted m.params).isEmpty then m.body else _) = _
    -- A position is listed exactly if the parameter there is asserted.
    have hempty : (Parameter.asserted m.params).isEmpty =
        !m.params.any (·.nullAssertion.isSome) := by
      rw [Bool.eq_iff_iff, List.isEmpty_iff, Parameter.asserted_eq_nil_iff, Bool.not_eq_true',
        List.any_eq_false]
      simp
    rw [hempty]
    cases m.params.any (·.nullAssertion.isSome) <;> rfl
  · have hslot : c.fullPlan.nullGuards = [] := by
      rw [← hc, nullGuards_fullPlan]
      show (if o.extensions.nullAssertion then d.nullSites else []).map _ = []
      rw [if_neg hon]
      rfl
    have hoff : o.extensions.nullAssertion = false := by simpa using hon
    rw [hoff, Bool.false_and]
    unfold Plan.guardedBody
    rw [hslot]
    rfl

/-- **A plan does to an item what the item asks for.** The position leads to the opening of the right
constructor, to the checks of the right method, and to the initializers that move. -/
theorem patchItem_fullPlan {i : Nat} {item : BodyItem} (h : d.body[i]? = some item) :
    c.fullPlan.patchItem i (item.replacement? o importsSystem) item = c.itemBecomes item := by
  have hdeclaration : c.declaration = d := hc ▸ rfl
  cases item with
  | statement code => rfl
  | comment text => rfl
  | member m =>
    have hm : m ∈ d.members := Declaration.mem_members.mpr (List.mem_of_getElem? h)
    have hmoved : c.fullPlan.isMoved i = c.declaration.movesInitializer m := by
      rw [isMoved_fullPlan hc h, isSome_movedInitializer?]
    apply congrArg BodyItem.member
    cases m with
    | field f | property q =>
      simp only [Plan.patchMember, becomes, hmoved]
      split <;> rfl
    | constructor k =>
      have hparams : k.params.map c.fullPlan.stripped = k.params.map c.unmarked :=
        map_stripped_fullPlan hc hm
      simp only [Plan.patchMember, becomes, hparams, opening_member hc h]
    | method m =>
      have hparams : m.params.map c.fullPlan.stripped = m.params.map c.unmarked :=
        map_stripped_fullPlan hc hm
      simp only [Plan.patchMember, becomes, hparams, guardedBody_eq_methodBody hc h]
    | type n =>
      rw [BodyItem.replacement?_type]
      subst hc
      rfl
    | raw code => rfl

/-- The constructor that a plan adds is the one that the declaration asks for. -/
theorem newConstructor_fullPlan (h : d.getsConstructor o = true) :
    c.fullPlan.newConstructor c = c.impliedConstructor := by
  have hdeclaration : c.declaration = d := hc ▸ rfl
  -- Without an implied constructor there is no access clause and no base with arguments.
  have hheader : d.hasPrimaryConstructor = false →
      d.constructorAccess = none ∧ d.bases.filterMap BaseEntry.args = [] := by
    intro hnone
    simp only [Declaration.hasPrimaryConstructor, Bool.or_eq_false_iff, Option.isSome_eq_false_iff,
      Option.isNone_iff_eq_none, List.any_eq_false, Bool.not_eq_true] at hnone
    exact ⟨hnone.1.2, List.filterMap_eq_nil_iff.mpr hnone.2⟩
  have haccess : (c.fullPlan.primary.map PrimaryPlan.access).getD c.defaultAccess =
      d.constructorAccess.getD c.defaultAccess := by
    rw [primary_fullPlan hc]
    cases hprimary : d.hasPrimaryConstructor with
    | true => rw [← hdeclaration]; rfl
    | false => rw [(hheader hprimary).1]; rfl
  have hcall : c.fullPlan.primary.bind PrimaryPlan.baseCall = c.baseCall := by
    rw [primary_fullPlan hc]
    cases hprimary : d.hasPrimaryConstructor with
    | true => rfl
    | false =>
      unfold baseCall
      rw [hdeclaration, (hheader hprimary).2]
      rfl
  have hparams : c.fullPlan.constructorParams c =
      c.namedParams.map fun x => { c.unmarked x.1 with name := x.2 } := by
    apply List.map_congr_left
    intro x hx
    have hmem : x.1 ∈ d.primaryParams := by
      rw [← hdeclaration]
      exact (List.of_mem_zip hx).1
    show { c.fullPlan.stripped x.1 with name := x.2 } = { c.unmarked x.1 with name := x.2 }
    rw [stripped_fullPlan hc (.inl hmem)]
  unfold Plan.newConstructor impliedConstructor
  rw [haccess, hcall, hparams, constructorBody_fullPlan hc h, movedAssignments_eq_map, hdeclaration]

end Patched

end Context

/-! ### Moved initializers -/

/-- The initializer of a field or a property. -/
def Member.initializer? : Member → Option Verbatim
  | .field f => f.initializer
  | .property q => q.initializer
  | _ => none

namespace Context

/-- The statement assigns to a member the initializer that it has, as it is written. The member is
named through `this` if a parameter of the constructor has its name. -/
def Assigns (c : Context) (m : Member) (s : Statement) : Prop :=
  ∃ name value, m.name? = some name ∧ m.initializer? = some value ∧
    s = .source { value with
      text := (if c.paramNames.contains name then "this." ++ name else name) ++ " = " ++
        value.text ++ ";" }

theorem of_instanceInitializer? {m : Member} {name : String} {value : Verbatim}
    (h : instanceInitializer? m = some (name, value)) :
    m.name? = some name ∧ m.initializer? = some value := by
  have hinitialized : ∀ {modifiers : List String} {own : String} {initializer : Option Verbatim},
      instanceInitializer?.initialized? modifiers own initializer = some (name, value) →
        own = name ∧ initializer = some value := by
    intro modifiers own initializer hread
    unfold instanceInitializer?.initialized? at hread
    split at hread
    · cases hread
    · obtain ⟨value', hvalue, heq⟩ := Option.map_eq_some_iff.mp hread
      cases heq
      exact ⟨rfl, hvalue⟩
  cases m with
  | field f | property q =>
    obtain ⟨hname, hvalue⟩ := hinitialized h
    exact ⟨congrArg some hname, hvalue⟩
  | constructor _ | method _ | type _ | raw _ => cases h

/-- **Each initializer that moves becomes one assignment**, in the order of the members. -/
theorem forall₂_assigns (c : Context) :
    List.Forall₂ c.Assigns (c.declaration.members.filter c.declaration.movesInitializer)
      c.movedAssignments := by
  rw [movedAssignments_eq_map]
  unfold Declaration.members
  -- Both lists are read off the body from left to right, and skip the same items.
  generalize c.declaration.body = body
  induction body with
  | nil => exact .nil
  | cons item rest ih =>
    cases item with
    | statement _ | comment _ => exact ih
    | member m =>
      have hsome := c.isSome_movedInitializer? m
      have hmember : (BodyItem.member m :: rest).filterMap BodyItem.member? =
          m :: rest.filterMap BodyItem.member? := rfl
      rw [hmember]
      cases hmoved : c.movedInitializer? (.member m) with
      | none =>
        rw [hmoved] at hsome
        rw [List.filter_cons_of_neg (by rw [← hsome]; exact Bool.false_ne_true),
          List.filterMap_cons_none hmoved]
        exact ih
      | some moved =>
        rw [hmoved] at hsome
        rw [List.filter_cons_of_pos hsome.symm, List.filterMap_cons_some hmoved, List.map_cons]
        apply List.Forall₂.cons _ ih
        have hread : instanceInitializer? m = some moved := (Option.filter_eq_some_iff.mp hmoved).1
        obtain ⟨hname, hvalue⟩ := of_instanceInitializer? hread
        exact ⟨moved.1, moved.2, hname, hvalue, rfl⟩

/-- Initializers move for the sake of primary parameters, so there is a constructor to take them. -/
theorem hasPrimaryConstructor_of_movesInitializer {d : Declaration} {m : Member}
    (h : d.movesInitializer m = true) : d.hasPrimaryConstructor = true := by
  have hparams : d.primaryParams ≠ [] := by
    intro hnone
    unfold Declaration.movesInitializer at h
    rw [hnone] at h
    cases hread : instanceInitializer? m <;> rw [hread] at h <;> cases h
  have hlist : d.params.isSome = true := by
    unfold Declaration.primaryParams at hparams
    cases hd : d.params with
    | none => rw [hd] at hparams; exact absurd rfl hparams
    | some params => rfl
  unfold Declaration.hasPrimaryConstructor
  rw [hlist, Bool.true_or, Bool.true_or]

/-- A method that gets checks has a body to hold them. -/
theorem exists_methodBody_eq_block {o : Options} {importsSystem : Bool} {d : Declaration}
    {c : Context} (hc : Context.of o importsSystem d = c) (hfault : d.fault? o = none) {m : Method}
    (hm : .method m ∈ d.members) (hguarded : c.isGuarded m = true) :
    ∃ block, c.methodBody m = .block block := by
  have hboth : o.extensions.nullAssertion = true ∧ ∃ p ∈ m.params, p.nullAssertion ≠ none := by
    subst hc
    simpa [isGuarded, Context.of, Option.isSome_iff_ne_none] using hguarded
  unfold methodBody
  rw [if_pos hguarded]
  cases hbody : m.body with
  | block body => exact ⟨_, rfl⟩
  | expression value => exact ⟨_, rfl⟩
  | absent => exact absurd hbody (Declaration.body_ne_absent hboth.1 hfault hm hboth.2)

/-! ### The whole declaration -/

/-- What is made of a declaration, as a whole. -/
structure Frames (c : Context) (plan : Plan) (d' : Declaration) : Prop where
  /-- The header loses what belongs to an extension, and keeps everything else. -/
  header : d'.toHeader = { c.declaration.toHeader with
    kind := c.declaration.loweredKind
    singleton := false
    params := none
    constructorAccess := none
    bases := c.declaration.bases.map fun b => { b with args := none } }
  /-- The holder of a singleton, the fields that keep parameters, the properties that parameters
  declare, the new constructor, the items that no constructor takes, the accessor of a singleton. -/
  body : d'.body =
    (if c.recognition.features.singletonMarker then [.member (.field c.holder)] else []) ++
    (c.declaration.primaryParams.filter c.isCaptured).map
      (fun p => .member (.field (captureField p))) ++
    (c.declaration.primaryParams.filter c.isShorthand).map
      (fun p => .member (.property (c.shorthandProperty p))) ++
    (if c.declaration.hasPrimaryConstructor || !(plan.opening .constructor).isEmpty then
      [.member (.constructor c.impliedConstructor)] else []) ++
    (c.declaration.body.drop c.recognition.initializerEnd).map c.itemBecomes ++
    (if c.recognition.features.singletonMarker then [.member (.property c.accessor)] else [])
  /-- A method that gets checks gets a block. -/
  guarded : ∀ m, .method m ∈ c.declaration.members → c.isGuarded m = true →
    ∃ block, c.methodBody m = .block block
  /-- Each initializer that moves becomes one assignment, and there is a constructor to take it. -/
  assigned : List.Forall₂ c.Assigns (c.declaration.members.filter c.declaration.movesInitializer)
    c.movedAssignments
  taken : ∀ m ∈ c.declaration.members, c.declaration.movesInitializer m = true →
    c.declaration.hasPrimaryConstructor = true

section Whole

variable {o : Options} {importsSystem : Bool} {d : Declaration} {c : Context}
  (hc : Context.of o importsSystem d = c)
include hc

theorem toHeader_lowered :
    (d.lowered o importsSystem).toHeader = { d.toHeader with
      kind := d.loweredKind
      singleton := false
      params := none
      constructorAccess := none
      bases := d.bases.map fun b => { b with args := none } } := by
  have hbases : (c.fullPlan.primary.map PrimaryPlan.bases).getD d.bases =
      d.bases.map fun b => { b with args := none } := by
    rw [primary_fullPlan hc]
    cases hprimary : d.hasPrimaryConstructor with
    | true => subst hc; rfl
    | false =>
      -- No base has arguments that could be taken away.
      simp only [Declaration.hasPrimaryConstructor, Bool.or_eq_false_iff, List.any_eq_false,
        Bool.not_eq_true, Option.isSome_eq_false_iff, Option.isNone_iff_eq_none] at hprimary
      show d.bases = _
      refine (List.map_id _).symm.trans (List.map_congr_left fun b hb => ?_)
      show b = { b with args := none }
      rw [← hprimary.2 b hb]
  subst hc
  show { d.toHeader with
    kind := d.loweredKind
    singleton := false
    params := none
    constructorAccess := none
    bases := ((Context.of o importsSystem d).fullPlan.primary.map PrimaryPlan.bases).getD
      d.bases } = _
  rw [hbases]

/-- The members that a full plan puts before those of the source. -/
theorem added_fullPlan :
    (c.fullPlan.added c).map BodyItem.member =
      (if c.recognition.features.singletonMarker then [.member (.field c.holder)] else []) ++
      (d.primaryParams.filter c.isCaptured).map (fun p => .member (.field (captureField p))) ++
      (d.primaryParams.filter c.isShorthand).map
        (fun p => .member (.property (c.shorthandProperty p))) ++
      (if d.hasPrimaryConstructor || !(c.fullPlan.opening .constructor).isEmpty then
        [.member (.constructor c.impliedConstructor)] else []) := by
  have hholder : (c.fullPlan.holder.toList.map Member.field).map BodyItem.member =
      if c.recognition.features.singletonMarker then [.member (.field c.holder)] else [] := by
    show ((if c.recognition.features.singletonMarker then some c.holder else none).toList.map
      Member.field).map BodyItem.member = _
    split <;> rfl
  have hadds : c.fullPlan.addsConstructor =
      (d.hasPrimaryConstructor || !(c.fullPlan.opening .constructor).isEmpty) := by
    unfold Plan.addsConstructor
    rw [primary_fullPlan hc]
    cases d.hasPrimaryConstructor <;> rfl
  have hnew : (if c.fullPlan.addsConstructor then [Member.constructor (c.fullPlan.newConstructor c)]
      else []).map BodyItem.member =
      if d.hasPrimaryConstructor || !(c.fullPlan.opening .constructor).isEmpty then
        [.member (.constructor c.impliedConstructor)] else [] := by
    rw [← hadds]
    split
    · next hgets =>
      rw [addsConstructor_fullPlan hc] at hgets
      rw [newConstructor_fullPlan hc hgets]
      rfl
    · rfl
  -- The four parts in their order: holder, captures, properties, constructor.
  unfold Plan.added
  rw [List.map_append, List.map_append, List.map_append, hholder, hnew, captures_fullPlan hc,
    properties_fullPlan hc]
  simp only [List.map_map, Function.comp_def]

/-- **The body of a lowered declaration**: new members, what is made of the items that are left, and
the accessor of a singleton. -/
theorem body_lowered_eq :
    (d.lowered o importsSystem).body = (c.fullPlan.added c).map .member ++
      (d.body.drop c.recognition.initializerEnd).map c.itemBecomes ++
      (if c.recognition.features.singletonMarker then [.member (.property c.accessor)] else []) := by
  have hconsumed : c.fullPlan.consumed = c.recognition.initializerEnd := by
    subst hc
    exact consumed_fullPlan o importsSystem d
  have hitems : (d.body.zipIdx.drop c.fullPlan.consumed).map (fun x =>
      c.fullPlan.patchItem x.2 (x.1.replacement? o importsSystem) x.1) =
        (d.body.drop c.recognition.initializerEnd).map c.itemBecomes := by
    rw [hconsumed, ← Plan.map_fst_zipIdx_drop, List.map_map]
    apply List.map_congr_left
    intro x hx
    exact patchItem_fullPlan hc (List.mem_zipIdx_iff_getElem?.mp (List.mem_of_mem_drop hx))
  have haccessor : (c.fullPlan.accessor.toList.map Member.property).map BodyItem.member =
      if c.recognition.features.singletonMarker then [.member (.property c.accessor)] else [] := by
    show ((if c.recognition.features.singletonMarker then some c.accessor else none).toList.map
      Member.property).map BodyItem.member = _
    split <;> rfl
  rw [body_lowered hc, hitems, haccessor, List.append_assoc]

end Whole

end Context

/-- **The frame of desugaring.** Let a declaration be desugared. Then it was recognized and planned,
and the result has this header and this body, in this order:

* the holder of a singleton, a field for each primary parameter that is captured, a property for each
  that declares one, and a constructor if the header implies one or some statement that opens a body
  has nowhere else to go;
* the items of the source behind the unnamed initializer, each in its place and changed as
  `Context.becomes` says and no further;
* the accessor of a singleton.

The header keeps everything that belongs to no extension. A method that gets checks gets a block, and
each initializer that moves becomes exactly one assignment. -/
theorem declaration_framed {o : Options} {importsSystem : Bool} {d d' : Declaration}
    (h : (d.desugarWith o importsSystem Feature.all).result = .baseline d') :
    ∃ r plan, d.recognize o = .ok r ∧
      Context.plan ⟨d, r, o, importsSystem⟩ Feature.all = .ok plan ∧
      Context.Frames ⟨d, r, o, importsSystem⟩ plan d' := by
  obtain ⟨hfault, rfl, -⟩ := Declaration.baseline_inv h
  obtain ⟨c, hc⟩ : ∃ c, Context.of o importsSystem d = c := ⟨_, rfl⟩
  have hrecognize : d.recognize o = .ok (d.recognition o) := by
    unfold Declaration.recognize
    rw [hfault]
  refine ⟨d.recognition o, c.fullPlan, hrecognize, hc ▸ Context.plan_all c, ?_⟩
  show (Context.of o importsSystem d).Frames c.fullPlan _
  have hdeclaration : c.declaration = d := hc ▸ rfl
  rw [hc]
  exact {
    header := by
      rw [Context.toHeader_lowered hc, hdeclaration]
    body := by
      rw [Context.body_lowered_eq hc, Context.added_fullPlan hc, hdeclaration]
    guarded := by
      rw [hdeclaration]
      intro m hm hguarded
      exact Context.exists_methodBody_eq_block hc hfault hm hguarded
    assigned := c.forall₂_assigns
    taken := by
      intro m _ hmoves
      exact Context.hasPrimaryConstructor_of_movesInitializer hmoves }

/-- `class Store(string Path, int size)` with a loose statement and a comment, a field whose
initializer moves, a method that gets a check, a late statement, and a nested type. -/
def shelvedStore : Declaration where
  attributes := ["[Serializable]"]
  modifiers := ["public"]
  kind := .plain
  singleton := false
  name := "Store"
  typeParams := some "<T>"
  params := some [
    ⟨[], [], ⟨"string"⟩, "Path", none, none, .nowhere⟩,
    ⟨[], [], ⟨"int"⟩, "size", none, none, .nowhere⟩]
  constructorAccess := none
  bases := [⟨"Shelf", some "Path"⟩]
  constraints := ["T : class"]
  source := .made ""
  span := .nowhere
  body := [
    .statement (.made "Open(path);"),
    .comment (.made "// half of it"),
    .member (.field ⟨[], [], ⟨"int"⟩, "half", some ⟨"size / 2", .nowhere, 0, ["size"]⟩, .nowhere⟩),
    .member (.method ⟨[], [], ⟨"int"⟩, "Put", none,
      [⟨[], [], ⟨"string"⟩, "key", none, some .byMarks, .nowhere⟩], [],
      .expression ⟨"key.Length + size", .nowhere, 0, ["key", "Length", "size"]⟩, .nowhere⟩),
    .statement (.made "Close();"),
    .member (.type { (default : Header) with
      name := "Entry", params := some [], body := [] })]

theorem declaration_framed_shelvedStore :
    ∃ d', (shelvedStore.desugarWith {} true Feature.all).result = .baseline d' ∧
      (∃ r plan, shelvedStore.recognize {} = .ok r ∧
        Context.plan ⟨shelvedStore, r, {}, true⟩ Feature.all = .ok plan ∧
        Context.Frames ⟨shelvedStore, r, {}, true⟩ plan d') ∧
      d'.members.filterMap Member.name? = ["size", "Path", "Store", "half", "Put", "Entry"] ∧
      d'.constructors.map (·.body.stmts) = [[.source (.made "Open(path);"), .assign "Path" "path",
        .source ⟨"half = size / 2;", .nowhere, 0, ["size"]⟩, .assign "this.size" "size"]] := by
  have h : (shelvedStore.desugarWith {} true Feature.all).result =
      .baseline (shelvedStore.lowered {} true) := rfl
  exact ⟨_, h, declaration_framed h, by decide +kernel, by decide +kernel⟩

end ClassSugar
