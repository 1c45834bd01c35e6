import Mathlib.Data.List.Forall2
import ClassSugar.Proofs.ConstructionPaths

/-!
# Checks for asserted parameters

A parameter that is asserted not to be null loses its mark, and the body that it belongs to gets a
check. The marks are found, the checks are placed and the marks are taken out by three passes that
know a parameter by the position of its body and its position in the list; in between the primary
parameters may get other names. That the passes agree is `null_assertions_are_checked`.

* No parameter of a constructor or method keeps a mark.
* A body has one check for each parameter that was marked, in order, under the name that the
  parameter has in the list that is emitted with it (`Context.checksFor`), and desugaring adds no
  other check but that of a singleton, which alone stands before them (`Context.Guarded`).
* A method without a mark keeps its body, and an expression body that gets checks becomes a block
  (`Context.GuardedMethod`). There is always a body to hold the checks.
-/

namespace ClassSugar

/-! ### Parameters and their checks -/

/-- A parameter as it is emitted: it has no assertion, and nothing else but its name may differ. -/
def Parameter.EmittedAs (p q : Parameter) : Prop :=
  q = { p with name := q.name, nullAssertion := none }

theorem Parameter.EmittedAs.rename {p q : Parameter} (h : p.EmittedAs q) (name : String) :
    p.EmittedAs { q with name } := by
  unfold Parameter.EmittedAs at h ⊢
  rw [h]

namespace Context

variable {c : Context}

/-- The checks for a parameter list: one for each parameter that is asserted as it is `written`, in
order, under the name of the parameter `emitted` at the same position. -/
def checksFor (c : Context) (written emitted : List Parameter) : List Statement :=
  ((written.zip emitted).filter fun x => x.1.nullAssertion.isSome).map fun x => c.nullGuard x.2.name

theorem checksFor_eq {written emitted : List Parameter} {names : List String}
    (hon : c.options.extensions.nullAssertion = true)
    (hnames : emitted.map Parameter.name = names) :
    c.checksFor written emitted = c.assertionChecks (written.zip names) := by
  unfold checksFor assertionChecks
  rw [if_pos hon, ← hnames, List.zip_map_right, List.filter_map, List.map_map]
  rfl

theorem singletonChecks_eq (c : Context) :
    c.singletonChecks = [] ∨ c.singletonChecks = [c.singletonGuard] := by
  unfold singletonChecks
  split
  · exact .inr rfl
  · exact .inl rfl

/-- Checks are calls and throws, so an assignment is none. -/
theorem not_isCheck_assign (target value : String) : ¬ c.IsCheck (.assign target value) := by
  rintro (h | ⟨name, h⟩)
  · cases h
  · unfold nullGuard at h
    split at h <;> cases h

theorem not_isCheck_of_isWritten {s : Statement} (h : s.isWritten = true) : ¬ c.IsCheck s := by
  intro hcheck
  rw [hcheck.not_isWritten] at h
  cases h

end Context

/-! ### Bodies of constructors -/

/-- A body as it is `emitted` for parameters that were asserted as `written`, given the statements
that it has of its own. -/
structure Context.Guarded (c : Context) (written : List Parameter) (own : List Statement)
    (emitted : List Parameter) (stmts : List Statement) : Prop where
  /-- The parameters are the same, in their order, without the marks. -/
  params : List.Forall₂ Parameter.EmittedAs written emitted
  /-- The checks stand before everything but the check of a singleton. What else is added is no
  check, and the body's own statements come last. -/
  body : ∃ first added, (first = [] ∨ first = [c.singletonGuard]) ∧
    (∀ s ∈ added, ¬ c.IsCheck s) ∧
    stmts = first ++ c.checksFor written emitted ++ added ++ own

theorem Plan.emittedAs_stripped {plan : Plan} {p : Parameter}
    (h : plan.stripNullMarkers = true ∨ p.nullAssertion = none) :
    p.EmittedAs (plan.stripped p) := by
  unfold Parameter.EmittedAs Plan.stripped
  split
  · rfl
  · rw [← h.resolve_left ‹_›]

/-- Parameters that only lose their marks keep their names. -/
theorem Plan.map_name_stripped (plan : Plan) (params : List Parameter) :
    (params.map plan.stripped).map Parameter.name = params.map Parameter.name := by
  rw [List.map_map]
  refine List.map_congr_left fun p _ => ?_
  rw [Function.comp_apply, Plan.stripped]
  split <;> rfl

namespace Context

theorem map_name_newConstructor (c : Context) :
    (c.fullPlan.newConstructor c).params.map Parameter.name = c.paramNames := by
  have hread : (c.fullPlan.newConstructor c).params.map Parameter.name =
      (c.declaration.primaryParams.zip c.paramNames).map Prod.snd := List.map_map
  rw [hread, List.map_snd_zip]
  exact (c.declaration.length_constructorParamNames _).le

section Lowered

variable {o : Options} {importsSystem : Bool} {d : Declaration} {c : Context}
  (hc : Context.of o importsSystem d = c) (hon : o.extensions.nullAssertion = true)
include hc hon

/-- Parameters of a member lose their marks, if there are any in the declaration. -/
theorem forall₂_emittedAs_stripped {m : Member} (hm : m ∈ d.members) :
    List.Forall₂ Parameter.EmittedAs m.params (m.params.map c.fullPlan.stripped) := by
  rw [List.forall₂_map_right_iff, List.forall₂_same]
  intro p hp
  subst hc
  refine Plan.emittedAs_stripped ((stripNullMarkers_fullPlan o importsSystem d hon).imp_right ?_)
  exact fun hfree => hfree.members m hm p hp

theorem checksFor_stripped (params : List Parameter) :
    c.checksFor params (params.map c.fullPlan.stripped) =
      c.assertionChecks (params.map fun p => (p, p.name)) := by
  rw [checksFor_eq (hc ▸ hon) (c.fullPlan.map_name_stripped params), List.map_prod_left_eq_zip]

/-- **A constructor of the source** keeps its parameters and its statements, behind the checks. -/
theorem guarded_patchedConstructor {k : Constructor} (hk : .constructor k ∈ d.members) :
    c.Guarded k.params k.body.stmts (c.patchedConstructor k).params
      (c.patchedConstructor k).body.stmts := by
  have hchecks : c.checksFor k.params (c.patchedConstructor k).params =
      c.assertionChecks (k.params.map fun p => (p, p.name)) := checksFor_stripped hc hon k.params
  refine ⟨forall₂_emittedAs_stripped hc hon hk, ?_⟩
  -- The check of a singleton and the initializer are for bodies through which instances are made.
  refine ⟨if c.declaration.isTarget k then c.singletonChecks else [],
    if c.declaration.isTarget k then c.initializerStatements else [], ?_, ?_, ?_⟩
  · split
    · exact c.singletonChecks_eq
    · exact .inl rfl
  · intro s hs
    split at hs
    · exact not_isCheck_of_isWritten (isWritten_of_mem_initializerStatements hs)
    · cases hs
  · rw [hchecks]
    rfl

/-- The parameters of a new constructor are those of the header, one for one. -/
theorem forall₂_emittedAs_newConstructor :
    List.Forall₂ Parameter.EmittedAs d.primaryParams (c.fullPlan.newConstructor c).params := by
  -- Every primary parameter has a name, so pairing them with their names loses none.
  have hheader : d.primaryParams = (d.primaryParams.zip c.paramNames).map Prod.fst := by
    rw [List.map_fst_zip]
    subst hc
    exact (d.length_constructorParamNames _).ge
  have hread : (c.fullPlan.newConstructor c).params = (d.primaryParams.zip c.paramNames).map
      fun x => { c.fullPlan.stripped x.1 with name := x.2 } := hc ▸ rfl
  rw [hread]
  nth_rewrite 1 [hheader]
  rw [List.forall₂_map_left_iff, List.forall₂_map_right_iff, List.forall₂_same]
  intro x hx
  subst hc
  refine (Plan.emittedAs_stripped ?_).rename x.2
  refine (stripNullMarkers_fullPlan o importsSystem d hon).imp_right fun hfree => ?_
  exact hfree.header x.1 (List.of_mem_zip hx).1

/-- **A new constructor** has the primary parameters under their names in the constructor, and no
statements of its own. -/
theorem guarded_newConstructor (hnew : d.getsConstructor o = true) :
    c.Guarded d.primaryParams [] (c.fullPlan.newConstructor c).params
      (c.fullPlan.newConstructor c).body.stmts := by
  have hchecks : c.checksFor d.primaryParams (c.fullPlan.newConstructor c).params =
      c.assertionChecks c.namedParams := by
    rw [checksFor_eq (hc ▸ hon) c.map_name_newConstructor]
    subst hc
    rfl
  have hbody : (c.fullPlan.newConstructor c).body.stmts = _ := constructorBody_fullPlan hc hnew
  obtain ⟨added, hadded, hstmts⟩ : ∃ added, (∀ s ∈ added, ¬ c.IsCheck s) ∧
      (c.fullPlan.newConstructor c).body.stmts =
        c.singletonChecks ++ (c.assertionChecks c.namedParams ++ added) := by
    rw [hbody]
    simp only [List.append_assoc]
    refine ⟨_, ?_, rfl⟩
    simp only [List.mem_append, List.mem_map]
    -- The initializer and what has moved are code of the source, everything else is an assignment.
    rintro s (hs | ⟨x, -, rfl⟩ | ⟨x, -, rfl⟩ | ⟨x, -, rfl⟩)
    · exact not_isCheck_of_isWritten (isWritten_of_mem_initializerStatements hs)
    · exact not_isCheck_assign _ _
    · exact not_isCheck_of_isWritten rfl
    · exact not_isCheck_assign _ _
  refine ⟨forall₂_emittedAs_newConstructor hc hon, c.singletonChecks, added, c.singletonChecks_eq,
    hadded, ?_⟩
  rw [hstmts, hchecks, List.append_nil, List.append_assoc]

end Lowered

end Context

/-! ### Methods -/

/-- The method that the item is. -/
def BodyItem.method? : BodyItem → Option Method
  | .member (.method m) => some m
  | _ => none

/-- The methods of a declaration, in order. -/
def Declaration.methods (d : Declaration) : List Method :=
  d.body.filterMap BodyItem.method?

theorem BodyItem.method?_eq_some {item : BodyItem} {m : Method} :
    item.method? = some m ↔ item = .member (.method m) := by
  refine ⟨fun h => ?_, fun h => h ▸ rfl⟩
  unfold BodyItem.method? at h
  split at h
  · cases h
    rfl
  · cases h

theorem Declaration.mem_methods {d : Declaration} {m : Method} :
    m ∈ d.methods ↔ .method m ∈ d.members := by
  unfold Declaration.methods
  rw [List.mem_filterMap, Declaration.mem_members]
  simp only [BodyItem.method?_eq_some, exists_eq_right]

/-- A method as it is emitted: what becomes of its body depends on whether a parameter is asserted,
and on the form that the body has. -/
inductive Context.GuardedMethod (c : Context) (m m' : Method) : Prop where
  | plain (hnone : ∀ p ∈ m.params, p.nullAssertion = none) (hbody : m'.body = m.body)
  | block {stmts : List Statement} (hsome : ∃ p ∈ m.params, p.nullAssertion ≠ none)
      (hold : m.body = .block ⟨stmts⟩)
      (hbody : m'.body = .block ⟨c.checksFor m.params m'.params ++ stmts⟩)
  | expression {value : Verbatim} (hsome : ∃ p ∈ m.params, p.nullAssertion ≠ none)
      (hold : m.body = .expression value)
      (hbody : m'.body = .block ⟨c.checksFor m.params m'.params ++
        [if m.returnsNothing then .expr value else .ret value]⟩)

/-- A method body behind some checks. -/
def MethodBody.behind (checks : List Statement) (returnsNothing : Bool) : MethodBody → MethodBody
  | .block body => .block ⟨checks ++ body.stmts⟩
  | .expression value => .block ⟨checks ++ [if returnsNothing then .expr value else .ret value]⟩
  | .absent => .absent

/-- **There is a body to hold the checks**: an assertion without one is refused. -/
theorem Declaration.body_ne_absent {o : Options} {d : Declaration} {m : Method}
    (hon : o.extensions.nullAssertion = true) (hfault : d.fault? o = none)
    (hm : .method m ∈ d.members) (hsome : ∃ p ∈ m.params, p.nullAssertion ≠ none) :
    m.body ≠ .absent := by
  intro habsent
  have hassertion : d.assertionFault? o.nullableContext = none := by
    simp only [fault?, hon, if_true, Option.orElse_eq_orElse, Option.orElse_eq_or,
      Option.or_eq_none_iff] at hfault
    exact hfault.2.2
  simp only [assertionFault?, Option.orElse_eq_orElse, Option.orElse_eq_or, Option.or_eq_none_iff,
    List.findSome?_eq_none_iff] at hassertion
  have hmember := hassertion.2 _ hm
  simp only [Member.assertionFault?, if_pos habsent, Option.orElse_eq_orElse, Option.orElse_eq_or,
    Option.or_eq_none_iff, Option.map_eq_none_iff, List.find?_eq_none] at hmember
  obtain ⟨p, hp, hmark⟩ := hsome
  exact hmember.2 p hp (Option.isSome_iff_ne_none.mpr hmark)

namespace Context

/-- A method of the source as a full plan leaves it. -/
def patchedMethod (c : Context) (m : Method) : Method :=
  { m with
    params := m.params.map c.fullPlan.stripped
    body :=
      if (Parameter.asserted m.params).isEmpty then m.body
      else m.body.behind (c.assertionChecks (m.params.map fun p => (p, p.name))) m.returnsNothing }

section Lowered

variable {o : Options} {importsSystem : Bool} {d : Declaration} {c : Context}
  (hc : Context.of o importsSystem d = c) (hon : o.extensions.nullAssertion = true)
include hc hon

/-- A method finds its own checks by its position. -/
theorem guardedBody_fullPlan {i : Nat} {m : Method} (h : d.body[i]? = some (.member (.method m))) :
    c.fullPlan.guardedBody i m = (c.patchedMethod m).body := by
  have howner : (Target.member i, m.params) ∈ d.paramOwners :=
    Declaration.mem_paramOwners.mpr (.inr ⟨i, _, h, rfl, rfl⟩)
  -- The names of a member's parameters are those that it is written with.
  have hnames : m.params.zip (c.namesOf (.member i)) = m.params.map fun p => (p, p.name) := by
    have hget : c.declaration.body[i]? = some (.member (.method m)) := hc ▸ h
    rw [List.map_prod_left_eq_zip]
    simp only [namesOf, hget, Member.params]
  have hlookup : c.fullPlan.nullGuards.lookup (.member i) =
      if (Parameter.asserted m.params).isEmpty then none
      else some (c.assertionChecks (m.params.map fun p => (p, p.name))) := by
    subst hc
    rw [lookup_nullGuards_of_on o importsSystem d hon howner, nullGuards_asserted howner, hnames]
    have hon' : (Context.of o importsSystem d).options.extensions.nullAssertion = true := hon
    simp only [assertionChecks, hon', if_true]
  unfold Plan.guardedBody patchedMethod
  rw [hlookup]
  cases (Parameter.asserted m.params).isEmpty with
  | true => rfl
  | false => cases m.body <;> rfl

theorem method?_patchItem {i : Nat} {item : BodyItem} (h : d.body[i]? = some item) :
    (c.fullPlan.patchItem i (item.replacement? o importsSystem) item).method? =
      item.method?.map c.patchedMethod := by
  match item with
  | .member (.method m) =>
    change some { m with
      params := m.params.map c.fullPlan.stripped
      body := c.fullPlan.guardedBody i m } = _
    rw [guardedBody_fullPlan hc hon h]
    rfl
  | .member (.type n) =>
    -- In place of a type there is a type or a text.
    rw [BodyItem.replacement?_type]
    cases (n.desugarWith o importsSystem Feature.all).result <;> rfl
  | .member (.field _) | .member (.property _) =>
    simp only [Plan.patchItem, Plan.patchMember]
    split <;> rfl
  | .member (.constructor _) | .member (.raw _) | .statement _ | .comment _ => rfl

/-- **The methods are those of the source**, each in its place. -/
theorem methods_lowered : (d.lowered o importsSystem).methods = d.methods.map c.patchedMethod := by
  -- What is added are fields, properties and a constructor.
  have hadded : (c.fullPlan.added c).filterMap (fun m => (BodyItem.member m).method?) = [] := by
    unfold Plan.added
    split <;> simp [List.filterMap_append, List.filterMap_map, BodyItem.method?]
  have haccessor : c.fullPlan.accessor.toList.filterMap
      (fun q => (BodyItem.member (.property q)).method?) = [] := by
    cases c.fullPlan.accessor <;> rfl
  unfold Declaration.methods
  rw [filterMap_body_lowered hc (fun _ => ⟨rfl, rfl⟩) fun i item h => method?_patchItem hc hon h,
    hadded, haccessor, List.append_nil, List.nil_append]

theorem guardedMethod_patchedMethod {m : Method} (hfault : d.fault? o = none)
    (hm : .method m ∈ d.members) : c.GuardedMethod m (c.patchedMethod m) := by
  have hchecks : c.checksFor m.params (c.patchedMethod m).params =
      c.assertionChecks (m.params.map fun p => (p, p.name)) := checksFor_stripped hc hon m.params
  cases hempty : (Parameter.asserted m.params).isEmpty with
  | true =>
    have hnone := Parameter.asserted_eq_nil_iff.mp (List.isEmpty_iff.mp hempty)
    exact .plain hnone (if_pos hempty)
  | false =>
    have hbehind : (c.patchedMethod m).body =
        m.body.behind (c.checksFor m.params (c.patchedMethod m).params) m.returnsNothing := by
      rw [hchecks]
      exact if_neg (ne_true_of_eq_false hempty)
    have hsome : ∃ p ∈ m.params, p.nullAssertion ≠ none := by
      have hne : Parameter.asserted m.params ≠ [] := List.isEmpty_eq_false_iff.mp hempty
      rw [ne_eq, Parameter.asserted_eq_nil_iff] at hne
      push Not at hne
      exact hne
    cases hbody : m.body with
    | block body => exact .block hsome hbody (by rw [hbehind, hbody, MethodBody.behind])
    | expression value => exact .expression hsome hbody (by rw [hbehind, hbody, MethodBody.behind])
    | absent => exact absurd hbody (Declaration.body_ne_absent hon hfault hm hsome)

end Lowered

end Context

/-- **Every null assertion is checked.** Let a declaration be desugared while assertions are
understood. Then no parameter of the result is asserted, and of its bodies this is true:

* if the header implies a constructor or the declaration needs one, then one new constructor comes
  first. It has the primary parameters under their names in a constructor, and a check for each
  that was asserted; otherwise there were no primary parameters;
* the constructors of the source follow. Each is as it was but for the marks of its parameters and
  the start of its body, where a check stands for each parameter that was asserted;
* the methods are those of the source. One without an assertion keeps its body. In every other one
  the checks come first; a body that was an expression becomes one statement after them, and a
  `return` if the method returns a value. -/
theorem null_assertions_are_checked {o : Options} {importsSystem : Bool} {d d' : Declaration}
    (hon : o.extensions.nullAssertion = true)
    (h : (d.desugarWith o importsSystem Feature.all).result = .baseline d') :
    let c := Context.of o importsSystem d
    d'.MarkFree ∧
    (∃ new old, d'.constructors = new ++ old ∧
      (if d.getsConstructor o then
        ∃ k, new = [k] ∧ k.params.map Parameter.name = c.paramNames ∧
          c.Guarded d.primaryParams [] k.params k.body.stmts
      else new = [] ∧ d.primaryParams = []) ∧
      List.Forall₂ (fun k k' => k' = { k with params := k'.params, body := k'.body } ∧
        k'.params.map Parameter.name = k.params.map Parameter.name ∧
        c.Guarded k.params k.body.stmts k'.params k'.body.stmts) d.constructors old) ∧
    List.Forall₂ (fun m m' => m' = { m with params := m'.params, body := m'.body } ∧
      m'.params.map Parameter.name = m.params.map Parameter.name ∧
      List.Forall₂ Parameter.EmittedAs m.params m'.params ∧
      c.GuardedMethod m m') d.methods d'.methods := by
  intro c
  have hc : Context.of o importsSystem d = c := rfl
  obtain ⟨hfault, rfl, -⟩ := Declaration.baseline_inv h
  refine ⟨d.settled_lowered.assertions hon,
    ⟨_, _, Context.constructors_lowered hc, ?_, ?_⟩, ?_⟩
  · split
    · next hnew =>
      exact ⟨_, rfl, c.map_name_newConstructor, Context.guarded_newConstructor hc hon hnew⟩
    · next hnew =>
      -- Primary parameters imply a constructor, so none is lost with its mark.
      rw [Declaration.getsConstructor, Bool.not_eq_true, Bool.or_eq_false_iff] at hnew
      exact ⟨rfl, Context.primaryParams_of_not_primary hc hnew.1⟩
  · rw [List.forall₂_map_right_iff, List.forall₂_same]
    intro k hk
    have hmember : .constructor k ∈ d.members :=
      Declaration.mem_members.mpr (Declaration.mem_constructors.mp hk)
    exact ⟨rfl, c.fullPlan.map_name_stripped k.params,
      Context.guarded_patchedConstructor hc hon hmember⟩
  · rw [Context.methods_lowered hc hon, List.forall₂_map_right_iff, List.forall₂_same]
    intro m hm
    have hmember := Declaration.mem_methods.mp hm
    exact ⟨rfl, c.fullPlan.map_name_stripped m.params,
      Context.forall₂_emittedAs_stripped hc hon hmember,
      Context.guardedMethod_patchedMethod hc hon hfault hmember⟩

/-- `class Person(string Name!!, string name!!)` with a loose statement, a constructor that calls
another one, a method that returns nothing, one that returns a value, and one without an
assertion. -/
def assertedPerson : Declaration where
  attributes := []
  modifiers := []
  kind := .plain
  singleton := false
  name := "Person"
  typeParams := none
  params := some [
    ⟨[], [], ⟨"string"⟩, "Name", none, some .byMarks, .nowhere⟩,
    ⟨[], [], ⟨"string"⟩, "name", none, some .byMarks, .nowhere⟩]
  constructorAccess := none
  bases := []
  constraints := []
  source := .made ""
  span := .nowhere
  body := [
    .statement (.made "Init();"),
    .member (.constructor ⟨[], [], "Person", [
      ⟨[], [], ⟨"int"⟩, "age", none, none, .nowhere⟩,
      ⟨[], [], ⟨"string"⟩, "nick", none, some .byAttribute, .nowhere⟩], some "this(nick, nick)",
      ⟨[.source (.made "Use(age);")]⟩, .nowhere⟩),
    .member (.method ⟨[], [], ⟨"void"⟩, "Greet", none,
      [⟨[], [], ⟨"string"⟩, "who", none, some .byMarks, .nowhere⟩], [],
      .expression (.made "Say(who)"), .nowhere⟩),
    .member (.method ⟨[], [], ⟨"string"⟩, "Join", none, [
      ⟨[], [], ⟨"string"⟩, "left", none, some .byMarks, .nowhere⟩,
      ⟨[], [], ⟨"string"⟩, "right", none, some .byMarks, .nowhere⟩], [],
      .expression (.made "left + right"), .nowhere⟩),
    .member (.method ⟨[], [], ⟨"int"⟩, "Twice", none,
      [⟨[], [], ⟨"int"⟩, "x", none, none, .nowhere⟩], [],
      .expression (.made "2 * x"), .nowhere⟩)]

theorem null_assertions_are_checked_assertedPerson :
    ∃ d', (assertedPerson.desugarWith {} true Feature.all).result = .baseline d' ∧
      d'.MarkFree ∧
      List.Forall₂ (Context.of {} true assertedPerson).GuardedMethod assertedPerson.methods
        d'.methods ∧
      d'.constructors.map (fun k => (k.params.map Parameter.name, k.body.stmts)) =
        [(["nameValue", "name"],
          [.call "ArgumentNullException.ThrowIfNull" ["nameValue", "nameof(nameValue)"],
            .call "ArgumentNullException.ThrowIfNull" ["name", "nameof(name)"],
            .source (.made "Init();"),
            .assign "Name" "nameValue"]),
        (["age", "nick"],
          [.call "ArgumentNullException.ThrowIfNull" ["nick", "nameof(nick)"],
            .source (.made "Use(age);")])] ∧
      d'.methods.map Method.body =
        [.block ⟨[.call "ArgumentNullException.ThrowIfNull" ["who", "nameof(who)"],
          .expr (.made "Say(who)")]⟩,
        .block ⟨[.call "ArgumentNullException.ThrowIfNull" ["left", "nameof(left)"],
          .call "ArgumentNullException.ThrowIfNull" ["right", "nameof(right)"],
          .ret (.made "left + right")]⟩,
        .expression (.made "2 * x")] := by
  have h : (assertedPerson.desugarWith {} true Feature.all).result =
      .baseline (assertedPerson.lowered {} true) := rfl
  obtain ⟨hfree, -, hmethods⟩ := null_assertions_are_checked rfl h
  exact ⟨_, h, hfree, hmethods.imp fun _ _ hm => hm.2.2.2, by decide +kernel, by decide +kernel⟩

end ClassSugar
