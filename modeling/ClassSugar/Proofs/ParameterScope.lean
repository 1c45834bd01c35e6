import ClassSugar.Proofs.SingletonForm

/-!
# The scope of primary parameters

A primary parameter is in scope in all of a class body. Its constructor parameter is in scope in the
constructor alone, so wherever else the name is still read there has to be a member of that name:
the property that the parameter declares, a field that keeps it, or a member that had the name
before. If there is none, the name *dangles* (`Declaration.Dangles`).

`parameter_dangles_iff` says exactly when this happens. Whether a parameter is kept in a field is
decided by the members whose initializers stay where they are. A property may lose its initializer
to the constructor and keep accessors with bodies; if these read a parameter that no other member
reads, then nothing keeps it.

Two lemmas carry the argument: what has the name of a parameter afterwards
(`Declaration.provides_lowered_iff`), and where a name is still read
(`Declaration.exists_reads_lowered_iff`).
-/

namespace ClassSugar

/-! ### Reading a name -/

/-- Whether a property reads a name outside its initializer. -/
def Property.bodyReads (name : String) (q : Property) : Bool :=
  match q.body with
  | .auto _ => false
  | .expression value => value.mentions name
  | .raw code => code.mentions name

/-- Whether the initializer of a member moves into the constructor: each instance runs it, and it
reads a primary parameter. -/
def Declaration.movesInitializer (d : Declaration) (m : Member) : Bool :=
  (Context.instanceInitializer? m).any fun x => d.primaryParams.any fun p => x.2.mentions p.name

/-- Whether a member reads a name once its initializer has moved, if it does. Of the members whose
initializers move only properties have other code. -/
def Declaration.stillReads (d : Declaration) (name : String) (m : Member) : Bool :=
  if d.movesInitializer m then
    match m with
    | .property q => q.bodyReads name
    | _ => false
  else m.reads name

/-- The member is the text of a nested type. Such a type was refused; it sees no parameters. -/
def Declaration.IsNestedText (d : Declaration) (m : Member) : Prop :=
  ∃ n, .type n ∈ d.members ∧ m = .raw n.source

/-- A member of the desugared declaration `d'` has the name of a parameter of `d`: a field, a
property, or one that had it before. -/
def Declaration.Provides (d d' : Declaration) (name : String) : Prop :=
  d.declaresMember name = true ∨ (∃ f, .field f ∈ d'.members ∧ f.name = name) ∨
    ∃ q, .property q ∈ d'.members ∧ q.name = name

/-- Some member of the desugared declaration `d'` reads a name that no member provides. -/
def Declaration.Dangles (d d' : Declaration) (name : String) : Prop :=
  (∃ m ∈ d'.members, m.reads name = true ∧ ¬ d.IsNestedText m) ∧ ¬ d.Provides d' name

/-- A patched member is text only if it was. -/
theorem Plan.eq_raw_of_patchMember (plan : Plan) {i : Nat} {nested : Option Member} {m : Member}
    {code : Verbatim} (htype : ∀ n, m ≠ .type n) (h : plan.patchMember i nested m = .raw code) :
    m = .raw code := by
  cases m with
  | type n => exact absurd rfl (htype n)
  | field f | property q =>
    simp only [Plan.patchMember] at h
    split at h <;> cases h
  | constructor k | method m => cases h
  | raw code' => exact h

namespace Context

theorem isSome_movedInitializer? (c : Context) (m : Member) :
    (c.movedInitializer? (.member m)).isSome = c.declaration.movesInitializer m := by
  change ((instanceInitializer? m).filter _).isSome = (instanceInitializer? m).any _
  cases instanceInitializer? m with
  | none => rfl
  | some x => exact Option.isSome_filter

theorem any_stayingMembers_iff {c : Context} {name : String} :
    c.stayingMembers.any (Member.reads name) = true ↔
      ∃ m ∈ c.declaration.members, c.declaration.movesInitializer m = false ∧
        m.reads name = true := by
  simp only [List.any_eq_true, stayingMembers, List.mem_filterMap, List.mem_filter]
  constructor
  · rintro ⟨m, ⟨item, ⟨hitem, hstays⟩, hm⟩, hreads⟩
    obtain rfl := BodyItem.member?_eq_some.mp hm
    refine ⟨m, Declaration.mem_members.mpr hitem, ?_, hreads⟩
    rw [← isSome_movedInitializer?]
    simpa using hstays
  · rintro ⟨m, hm, hstays, hreads⟩
    refine ⟨m, ⟨.member m, ⟨Declaration.mem_members.mp hm, ?_⟩, rfl⟩, hreads⟩
    rw [← isSome_movedInitializer?] at hstays
    simpa using hstays

/-- Checks of arguments mention names only in text that is made. -/
theorem mentions_of_mem_nullGuards {c : Context} {site : NullSite} {s : Statement}
    (h : s ∈ c.nullGuards site) (name : String) : s.mentions name = false := by
  obtain ⟨i, -, rfl⟩ := List.mem_map.mp h
  unfold nullGuard
  split <;> rfl

section Lowered

variable {o : Options} {importsSystem : Bool} {d : Declaration} {c : Context}
  (hc : Context.of o importsSystem d = c)
include hc

/-- A parameter is kept in a field exactly if nothing else has its name and a member that stays as
it was reads it. -/
theorem isCaptured_iff {p : Parameter} :
    c.isCaptured p = true ↔ c.isShorthand p = false ∧ d.declaresMember p.name = false ∧
      ∃ m ∈ d.members, d.movesInitializer m = false ∧ m.reads p.name = true := by
  unfold isCaptured
  rw [Bool.and_eq_true, Bool.and_eq_true, any_stayingMembers_iff, Bool.not_eq_true',
    Bool.not_eq_true', and_assoc, ← hc]
  rfl

/-- The members that are left of the source. -/
theorem mem_remaining_iff {m : Member} :
    .member m ∈ (d.body.zipIdx.drop c.fullPlan.consumed).map (fun x =>
        c.fullPlan.patchItem x.2 (x.1.replacement? o importsSystem) x.1) ↔
      ∃ i old, d.body[i]? = some (.member old) ∧ m = c.fullPlan.patchMember i
        ((BodyItem.member old).replacement? o importsSystem) old := by
  rw [List.mem_map]
  constructor
  · rintro ⟨⟨item, i⟩, hitem, heq⟩
    have hget : d.body[i]? = some item :=
      List.mem_zipIdx_iff_getElem?.mp (List.mem_of_mem_drop hitem)
    cases item with
    | member old => exact ⟨i, old, hget, (BodyItem.member.inj heq).symm⟩
    | statement _ | comment _ => cases heq
  · rintro ⟨i, old, hget, rfl⟩
    refine ⟨(.member old, i), ?_, rfl⟩
    -- A member is not among the items that the plan consumes.
    have hmem : (.member old, i) ∈ d.body.zipIdx := List.mem_zipIdx_iff_getElem?.mpr hget
    rw [← List.take_append_drop c.fullPlan.consumed d.body.zipIdx, List.mem_append] at hmem
    refine hmem.resolve_left fun htake => ?_
    have hconsumed : .member old ∈ d.body.take c.fullPlan.consumed := by
      rw [← List.zipIdx_map_fst 0 d.body, ← List.map_take]
      exact List.mem_map_of_mem htake
    rw [← hc] at hconsumed
    cases isMember_of_mem_take_consumed o importsSystem d hconsumed

/-- The checks in front of a method mention nothing. -/
theorem any_mentions_of_lookup_nullGuards {t : Target} {guards : List Statement}
    (h : c.fullPlan.nullGuards.lookup t = some guards) (name : String) :
    guards.any (Statement.mentions name) = false := by
  obtain ⟨before, after, hsplit, -⟩ := List.lookup_eq_some_iff.mp h
  have hmem : (t, guards) ∈ c.fullPlan.nullGuards := by
    rw [hsplit]
    simp
  rw [← hc, nullGuards_fullPlan] at hmem
  obtain ⟨site, -, heq⟩ := List.mem_map.mp hmem
  cases heq
  rw [List.any_eq_false]
  intro s hs
  rw [mentions_of_mem_nullGuards hs name]
  exact Bool.false_ne_true

theorem reads_guardedBody (i : Nat) (m : Method) (params : List Parameter) (name : String) :
    (Member.method { m with params, body := c.fullPlan.guardedBody i m }).reads name =
      (Member.method m).reads name := by
  unfold Plan.guardedBody
  cases hlookup : c.fullPlan.nullGuards.lookup (.member i) with
  | none => rfl
  | some guards =>
    have hquiet := any_mentions_of_lookup_nullGuards hc hlookup name
    cases hbody : m.body with
    | block body =>
      simp only [Member.reads, hbody, List.any_append, hquiet, Bool.false_or]
    | expression value =>
      -- The value stays a statement of its own, dropped or returned.
      simp only [Member.reads, hbody, List.any_append, hquiet, Bool.false_or, List.any_cons,
        List.any_nil, Bool.or_false]
      split <;> rfl
    | absent => simp only [Member.reads, hbody]

/-- **What a member reads once it is patched** is what is left of it when its initializer moves. -/
theorem reads_patchMember {i : Nat} {m : Member} (h : d.body[i]? = some (.member m))
    (htype : ∀ n, m ≠ .type n) (nested : Option Member) (name : String) :
    (c.fullPlan.patchMember i nested m).reads name = d.stillReads name m := by
  have hmoved : c.fullPlan.isMoved i = d.movesInitializer m := by
    rw [isMoved_fullPlan hc h, isSome_movedInitializer?, ← hc]
    rfl
  unfold Declaration.stillReads
  cases m with
  | type n => exact absurd rfl (htype n)
  | constructor k => rfl
  | raw code => rfl
  | field f =>
    simp only [Plan.patchMember, hmoved]
    split <;> rfl
  | property q =>
    simp only [Plan.patchMember, hmoved]
    split
    · simp only [Member.reads, Property.bodyReads]
      rfl
    · rfl
  | method m => exact reads_guardedBody hc i m _ name  -- a method has no initializer to move

end Lowered

/-! ### New members -/

section Added

variable {o : Options} {importsSystem : Bool} {d : Declaration} {c : Context} {p : Parameter}
  (hc : Context.of o importsSystem d = c) (hfault : d.fault? o = none)
  (hp : p ∈ d.primaryParams)
include hc hfault hp

/-- A singleton with primary parameters is refused. -/
theorem singletonMarker_eq_false : c.recognition.features.singletonMarker = false := by
  by_contra hmarker
  rw [Bool.not_eq_false] at hmarker
  subst hc
  have hboth := Bool.and_eq_true_iff.mp (show (o.extensions.singleton && d.singleton) = true from
    hmarker)
  have hready := Declaration.singletonReady_of_fault?_eq_none hboth.1 hboth.2 hfault
  rw [hready.params] at hp
  cases hp

/-- **The new members of a declaration with primary parameters**: a field for each that is captured,
a property for each that declares one, and the constructor. -/
theorem mem_added_iff {m : Member} :
    m ∈ c.fullPlan.added c ↔
      (∃ q ∈ d.primaryParams, c.isCaptured q = true ∧ m = .field (captureField q)) ∨
      (∃ q ∈ d.primaryParams, c.isShorthand q = true ∧ m = .property (c.shorthandProperty q)) ∨
      m = .constructor (c.fullPlan.newConstructor c) := by
  have hholder : c.fullPlan.holder = none :=
    if_neg (by simp [singletonMarker_eq_false hc hfault hp])
  -- There is a parameter list, so the header implies a constructor.
  have hprimary : d.hasPrimaryConstructor = true := by
    by_contra hnone
    have hparams := primaryParams_of_not_primary hc (by simpa using hnone)
    subst hc
    rw [show d.primaryParams = [] from hparams] at hp
    cases hp
  have hnew : c.fullPlan.addsConstructor = true := by
    rw [addsConstructor_fullPlan hc, Declaration.getsConstructor, hprimary, Bool.true_or]
  unfold Plan.added
  rw [hholder, captures_fullPlan hc, properties_fullPlan hc, hnew, if_pos rfl, Option.toList_none,
    List.map_nil, List.nil_append, List.mem_append, List.mem_append, List.mem_singleton, or_assoc]
  simp only [List.mem_map, List.mem_filter]
  grind

/-- **The members of a declaration that had primary parameters**: fields that keep them, properties
that they declare, the constructor, and what is left of the members of the source. -/
theorem mem_members_lowered {m : Member} :
    m ∈ (d.lowered o importsSystem).members ↔
      (∃ q ∈ d.primaryParams, c.isCaptured q = true ∧ m = .field (captureField q)) ∨
      (∃ q ∈ d.primaryParams, c.isShorthand q = true ∧ m = .property (c.shorthandProperty q)) ∨
      m = .constructor (c.fullPlan.newConstructor c) ∨
      ∃ i old, d.body[i]? = some (.member old) ∧ m = c.fullPlan.patchMember i
        ((BodyItem.member old).replacement? o importsSystem) old := by
  have haccessor : c.fullPlan.accessor = none :=
    if_neg (by simp [singletonMarker_eq_false hc hfault hp])
  have hadded : .member m ∈ (c.fullPlan.added c).map BodyItem.member ↔ m ∈ c.fullPlan.added c := by
    simp
  rw [Declaration.mem_members, body_lowered hc, haccessor, Option.toList_none, List.map_nil,
    List.map_nil, List.append_nil, List.mem_append, hadded, mem_added_iff hc hfault hp,
    mem_remaining_iff hc, or_assoc, or_assoc]

end Added

end Context

/-! ### Names that dangle -/

namespace Declaration

section Scope

variable {o : Options} {importsSystem : Bool} {d : Declaration} {c : Context} {p : Parameter}
  (hc : Context.of o importsSystem d = c) (hfault : d.fault? o = none)
  (hp : p ∈ d.primaryParams)

/-- A member that is left has the name that it had, if it still has one: the text of a refused type
declares nothing. -/
theorem declaresMember_of_patchMember {plan : Plan} {i : Nat} {old m : Member} {name : String}
    (hget : d.body[i]? = some (.member old))
    (hm : m = plan.patchMember i ((BodyItem.member old).replacement? o importsSystem) old)
    (hname : m.name? = some name) : d.declaresMember name = true := by
  subst hm
  have hold : old ∈ d.members := mem_members.mpr (List.mem_of_getElem? hget)
  refine declaresMember_of_mem hold ?_
  cases old with
  | type n =>
    rw [BodyItem.replacement?_type] at hname
    cases hresult : (n.desugarWith o importsSystem Feature.all).result with
    | unchanged source =>
      rw [hresult] at hname
      cases hname
    | baseline n' =>
      obtain ⟨-, rfl, -⟩ := Declaration.baseline_inv hresult
      rw [hresult] at hname
      exact hname
  | field f | property q =>
    simp only [Plan.patchMember] at hname
    split at hname <;> exact hname
  | constructor k | method m | raw code => exact hname

include hc hfault hp

/-- **What has the name of a parameter afterwards**: a member that had it before, the property that
the parameter declares, or the field that keeps it. -/
theorem provides_lowered_iff :
    d.Provides (d.lowered o importsSystem) p.name ↔
      d.declaresMember p.name = true ∨ c.isShorthand p = true ∨ c.isCaptured p = true := by
  -- Parameters of one name are treated alike.
  have hsame : ∀ q : Parameter, q.name = p.name →
      c.isShorthand q = c.isShorthand p ∧ c.isCaptured q = c.isCaptured p := by
    intro q hq
    simp [Context.isCaptured, Context.isShorthand, Parameter.isCapitalized, hq]
  unfold Provides
  simp only [Context.mem_members_lowered hc hfault hp]
  constructor
  · rintro (hbefore | ⟨f, hf, hname⟩ | ⟨f, hf, hname⟩)
    · exact .inl hbefore
    · rcases hf with ⟨q, -, hq, heq⟩ | ⟨q, -, -, heq⟩ | heq | ⟨i, old, hget, heq⟩
      · obtain rfl := Member.field.inj heq
        exact .inr (.inr ((hsame q hname).2 ▸ hq))
      · cases heq
      · cases heq
      · exact .inl (declaresMember_of_patchMember hget heq (congrArg some hname))
    · rcases hf with ⟨q, -, -, heq⟩ | ⟨q, -, hq, heq⟩ | heq | ⟨i, old, hget, heq⟩
      · cases heq
      · obtain rfl := Member.property.inj heq
        exact .inr (.inl ((hsame q hname).1 ▸ hq))
      · cases heq
      · exact .inl (declaresMember_of_patchMember hget heq (congrArg some hname))
  · rintro (hbefore | hshorthand | hcaptured)
    · exact .inl hbefore
    · exact .inr (.inr ⟨_, .inr (.inl ⟨p, hp, hshorthand, rfl⟩), rfl⟩)
    · exact .inr (.inl ⟨_, .inl ⟨p, hp, hcaptured, rfl⟩, rfl⟩)

/-- **Where a name is still read**: in what is left of the members of the source, and nowhere in the
new members. -/
theorem exists_reads_lowered_iff {name : String} :
    (∃ m ∈ (d.lowered o importsSystem).members, m.reads name = true ∧ ¬ d.IsNestedText m) ↔
      ∃ m ∈ d.members, d.stillReads name m = true ∧ ¬ d.IsNestedText m := by
  simp only [Context.mem_members_lowered hc hfault hp]
  constructor
  · rintro ⟨m, hm, hreads, htext⟩
    rcases hm with ⟨q, -, -, rfl⟩ | ⟨q, -, -, rfl⟩ | rfl | ⟨i, old, hget, rfl⟩
    -- New members have no code of the source outside the constructor.
    · cases hreads
    · cases hreads
    · cases hreads
    · have hold : old ∈ d.members := mem_members.mpr (List.mem_of_getElem? hget)
      by_cases htype : ∃ n, old = .type n
      · -- A type reads nothing, and a refused one is left as its text.
        obtain ⟨n, rfl⟩ := htype
        rw [BodyItem.replacement?_type] at hreads htext
        cases hresult : (n.desugarWith o importsSystem Feature.all).result with
        | baseline n' =>
          rw [hresult] at hreads
          cases hreads
        | unchanged source =>
          obtain ⟨-, -, rfl, -⟩ := Declaration.unchanged_inv hresult
          rw [hresult] at htext
          exact absurd ⟨n, hold, rfl⟩ htext
      · rw [Context.reads_patchMember hc hget fun n hn => htype ⟨n, hn⟩] at hreads
        refine ⟨old, hold, hreads, ?_⟩
        rintro ⟨n, hn, rfl⟩
        exact htext ⟨n, hn, rfl⟩
  · rintro ⟨m, hm, hreads, htext⟩
    have htype : ∀ n, m ≠ .type n := by
      rintro n rfl
      cases hreads
    obtain ⟨i, hget⟩ := List.getElem?_of_mem (mem_members.mp hm)
    refine ⟨_, .inr (.inr (.inr ⟨i, m, hget, rfl⟩)), ?_, ?_⟩
    · rw [Context.reads_patchMember hc hget htype]
      exact hreads
    · rintro ⟨n, hn, heq⟩
      exact htext ⟨n, hn, c.fullPlan.eq_raw_of_patchMember htype heq⟩

end Scope

end Declaration

/-- **When the name of a parameter dangles.** In a declaration that is desugared, a member still
reads the name of a primary parameter that no member provides exactly if

* the parameter declares no property, and no member had its name before;
* every member that reads it loses its initializer to the constructor, so that no field keeps it;
* the body of one of these, a property, reads it all the same.
-/
theorem parameter_dangles_iff {o : Options} {importsSystem : Bool} {d d' : Declaration}
    {p : Parameter} (h : (d.desugarWith o importsSystem Feature.all).result = .baseline d')
    (hp : p ∈ d.primaryParams) :
    d.Dangles d' p.name ↔
      (o.extensions.propertyShorthand && p.isCapitalized) = false ∧
      d.declaresMember p.name = false ∧
      (∀ m ∈ d.members, m.reads p.name = true → d.movesInitializer m = true) ∧
      ∃ q, .property q ∈ d.members ∧ d.movesInitializer (.property q) = true ∧
        q.bodyReads p.name = true := by
  obtain ⟨hfault, rfl, -⟩ := Declaration.baseline_inv h
  obtain ⟨c, hc⟩ : ∃ c, Context.of o importsSystem d = c := ⟨_, rfl⟩
  have hshorthand : c.isShorthand p = (o.extensions.propertyShorthand && p.isCapitalized) :=
    hc ▸ rfl
  unfold Declaration.Dangles
  rw [Declaration.provides_lowered_iff hc hfault hp,
    Declaration.exists_reads_lowered_iff hc hfault hp, ← hshorthand]
  constructor
  · rintro ⟨hreads, hfree⟩
    rw [not_or, not_or, Bool.not_eq_true, Bool.not_eq_true] at hfree
    obtain ⟨hbefore, hnoProperty, hnoField⟩ := hfree
    -- A member that stayed and reads the name would have had it captured.
    have hmoves : ∀ m ∈ d.members, m.reads p.name = true → d.movesInitializer m = true := by
      intro m hm hread
      by_contra hstays
      rw [Bool.not_eq_true] at hstays
      exact hnoField ((Context.isCaptured_iff hc).mpr
        ⟨hnoProperty, hbefore, m, hm, hstays, hread⟩)
    obtain ⟨m, hm, hread, -⟩ := hreads
    unfold Declaration.stillReads at hread
    split at hread
    · next hmoved =>
      -- Of the members whose initializers move only a property has a body left to read it.
      cases m with
      | property q => exact ⟨hnoProperty, hbefore, hmoves, q, hm, hmoved, hread⟩
      | _ => cases hread
    · next hstays => exact absurd (hmoves m hm hread) hstays
  · rintro ⟨hnoProperty, hbefore, hmoves, q, hq, hmoved, hread⟩
    have hstill : d.stillReads p.name (.property q) = true := by
      unfold Declaration.stillReads
      rw [if_pos hmoved]
      exact hread
    rw [hbefore, hnoProperty, not_or, not_or]
    refine ⟨⟨_, hq, hstill, ?_⟩, Bool.false_ne_true, Bool.false_ne_true, fun hcaptured => ?_⟩
    · rintro ⟨n, -, ⟨⟩⟩
    · obtain ⟨-, -, m, hm, hstays, hread⟩ := (Context.isCaptured_iff hc).mp hcaptured
      rw [hmoves m hm hread] at hstays
      cases hstays

/-- `class Box(int size)` with a property that reads the parameter in its initializer and in its
accessor. -/
def rescaledBox : Declaration where
  attributes := []
  modifiers := []
  kind := .plain
  singleton := false
  name := "Box"
  typeParams := none
  params := some [⟨[], [], ⟨"int"⟩, "size", none, none, .nowhere⟩]
  constructorAccess := none
  bases := []
  constraints := []
  source := .made ""
  span := .nowhere
  body := [
    .member (.property ⟨[], ["public"], ⟨"int"⟩, "Size",
      .raw ⟨"\x7b get => field + size; \x7d", .nowhere, 0, ["get", "field", "size"]⟩,
      some ⟨"size", .nowhere, 0, ["size"]⟩, .nowhere⟩)]

theorem parameter_dangles_iff_rescaledBox :
    ∃ d', (rescaledBox.desugarWith {} true Feature.all).result = .baseline d' ∧
      rescaledBox.Dangles d' "size" := by
  have h : (rescaledBox.desugarWith {} true Feature.all).result =
      .baseline (rescaledBox.lowered {} true) := rfl
  have hp : ⟨[], [], ⟨"int"⟩, "size", none, none, .nowhere⟩ ∈ rescaledBox.primaryParams :=
    List.mem_singleton_self _
  refine ⟨_, h, (parameter_dangles_iff h hp).mpr ⟨by decide, by decide, ?_, ?_⟩⟩
  · intro m hm _
    obtain rfl : m = _ := List.mem_singleton.mp hm
    decide
  · exact ⟨_, List.mem_singleton_self _, by decide, by decide⟩

end ClassSugar
