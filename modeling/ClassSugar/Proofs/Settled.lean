import ClassSugar.Proofs.AllRules
import ClassSugar.Proofs.BodyParts

/-!
# Settled declarations

A declaration is *settled* under some options if nothing that these options understand is left to
do in it, types nested in it aside: its header is plain, no parameter is asserted not to be null,
and no loose statement stands before its members. The two halves of a normal form:

* `Declaration.recognition_of_settled` — in a settled declaration nothing is recognized; loose
  statements are still reported, and nothing is refused (`Declaration.fault?_of_settled`);
* `Context.assemble_settled` — what a full plan makes of a declaration is settled.

A lowered declaration is both the result of its full plan and what is left of its items
(`Declaration.settled_lowered`, `Declaration.mem_body_lowered`).

An extension that is switched off may leave its traces: assertions and loose statements count only if
they are understood. A declaration without assertions stays free of them whatever is done with it
(`Plan.assemble_markFree`).
-/

namespace ClassSugar

/-! ### What a plan makes of a body -/

namespace Plan

variable (p : Plan) (c : Context)

theorem isMember_patchItem (position : Nat) (nested : Option Member) (item : BodyItem) :
    (p.patchItem position nested item).isMember = item.isMember := by
  cases item <;> rfl

theorem patchItem_of_isMember_eq_false (position : Nat) (nested : Option Member) {item : BodyItem}
    (h : item.isMember = false) : p.patchItem position nested item = item := by
  cases item with
  | member m => cases h
  | statement _ | comment _ => rfl

/-- Replacements that are found item by item go to their own items. -/
theorem remainingBody_map (body : List BodyItem) (replace : BodyItem → Option Member) :
    p.remainingBody body (body.map replace) =
      (body.zipIdx.drop p.consumed).map fun (item, i) => p.patchItem i (replace item) item := by
  unfold remainingBody
  refine List.map_congr_left ?_
  rintro ⟨item, i⟩ hmem
  have hget : body[i]? = some item := List.mem_zipIdx_iff_getElem?.mp (List.mem_of_mem_drop hmem)
  simp [hget]

/-- The items that a plan leaves in a body are the ones that it does not consume. -/
theorem map_fst_zipIdx_drop (body : List BodyItem) (n : Nat) :
    (body.zipIdx.drop n).map Prod.fst = body.drop n := by
  rw [List.map_drop, List.zipIdx_map_fst]

theorem looseStatements_remainingBody (body : List BodyItem) (nested : List (Option Member)) :
    Declaration.looseStatements (p.remainingBody body nested) =
      Declaration.looseStatements (body.drop p.consumed) := by
  rw [← map_fst_zipIdx_drop]
  unfold Declaration.looseStatements remainingBody
  rw [List.filterMap_map, List.filterMap_map]
  congr 1
  funext ⟨item, i⟩
  cases item <;> rfl

theorem mem_takeWhile_remainingBody {body : List BodyItem} {nested : List (Option Member)}
    {item : BodyItem}
    (h : item ∈ (p.remainingBody body nested).takeWhile fun item => !item.isMember) :
    item ∈ (body.drop p.consumed).takeWhile fun item => !item.isMember := by
  unfold remainingBody at h
  rw [List.takeWhile_map] at h
  obtain ⟨⟨old, i⟩, hold, hitem⟩ := List.mem_map.mp h
  have htest : ((fun item : BodyItem => !item.isMember) ∘
      fun (item, i) => p.patchItem i (nested.getD i none) item) =
        (fun item => !item.isMember) ∘ Prod.fst := by
    funext ⟨item, i⟩
    simp [isMember_patchItem]
  rw [htest] at hold
  have hnot : old.isMember = false := by
    simpa using List.mem_takeWhile_imp hold
  have hsame : item = old := by
    rw [← hitem]
    exact p.patchItem_of_isMember_eq_false _ _ hnot
  rw [← map_fst_zipIdx_drop, List.takeWhile_map, hsame]
  exact List.mem_map.mpr ⟨(old, i), hold, rfl⟩

/-- The members that stand before what the body had. -/
def added : List Member :=
  p.holder.toList.map .field ++ ((p.primary.map PrimaryPlan.captures).getD []).map .field ++
    p.properties.map .property ++
    (if p.addsConstructor then [.constructor (p.newConstructor c)] else [])

/-- New members are fields, properties and one constructor. -/
theorem eq_of_mem_added {m : Member} (h : m ∈ p.added c) :
    (∃ f, m = .field f) ∨ (∃ q, m = .property q) ∨ m = .constructor (p.newConstructor c) := by
  simp only [added, List.mem_append, List.mem_map] at h
  rcases h with ((⟨f, -, rfl⟩ | ⟨f, -, rfl⟩) | ⟨q, -, rfl⟩) | hnew
  · exact .inl ⟨f, rfl⟩
  · exact .inl ⟨f, rfl⟩
  · exact .inr (.inl ⟨q, rfl⟩)
  · split at hnew
    · exact .inr (.inr (List.mem_singleton.mp hnew))
    · cases hnew

theorem assembleBody_eq (nested : List (Option Member)) :
    p.assembleBody c nested = (p.added c).map .member ++
      (p.remainingBody c.declaration.body nested ++
        (p.accessor.toList.map .property).map .member) := by
  unfold assembleBody added
  split <;> simp [List.map_append, List.append_assoc, Function.comp_def]

theorem looseStatements_assembleBody (nested : List (Option Member)) :
    Declaration.looseStatements (p.assembleBody c nested) =
      Declaration.looseStatements (c.declaration.body.drop p.consumed) := by
  have hmembers : ∀ ms : List Member,
      Declaration.looseStatements (ms.map .member) = [] := by
    intro ms
    refine Declaration.looseStatements_eq_nil fun item hitem => ?_
    obtain ⟨m, -, rfl⟩ := List.mem_map.mp hitem
    rfl
  rw [assembleBody_eq, Declaration.looseStatements_append, Declaration.looseStatements_append,
    hmembers, hmembers, looseStatements_remainingBody, List.nil_append, List.append_nil]

theorem takeWhile_append_members (items : List BodyItem) (ms : List Member) :
    (items ++ ms.map BodyItem.member).takeWhile (fun item => !item.isMember) =
      items.takeWhile fun item => !item.isMember := by
  induction items with
  | nil => cases ms <;> rfl
  | cons item rest ih => rw [List.cons_append, List.takeWhile_cons, List.takeWhile_cons, ih]

/-- What stands before every member of the new body stood before every member that was left. -/
theorem mem_takeWhile_assembleBody {nested : List (Option Member)} {item : BodyItem}
    (h : item ∈ (p.assembleBody c nested).takeWhile fun item => !item.isMember) :
    item ∈ (c.declaration.body.drop p.consumed).takeWhile fun item => !item.isMember := by
  rw [assembleBody_eq] at h
  -- With a new member in front nothing stands before the members at all.
  cases hadded : p.added c with
  | cons m ms => simp [hadded, BodyItem.isMember] at h
  | nil =>
    rw [hadded, List.map_nil, List.nil_append, takeWhile_append_members] at h
    exact p.mem_takeWhile_remainingBody h

/-! ### Assertions in a new body -/

/-- A parameter that is taken over has no assertion if all are taken out, or if it had none. -/
theorem nullAssertion_stripped {param : Parameter}
    (h : p.stripNullMarkers = true ∨ param.nullAssertion = none) :
    (p.stripped param).nullAssertion = none := by
  unfold stripped
  split
  · rfl
  · exact h.resolve_left ‹_›

theorem nullAssertion_map_stripped {params : List Parameter}
    (h : p.stripNullMarkers = true ∨ ∀ q ∈ params, q.nullAssertion = none) :
    ∀ q ∈ params.map p.stripped, q.nullAssertion = none := by
  intro q hq
  obtain ⟨param, hparam, rfl⟩ := List.mem_map.mp hq
  exact p.nullAssertion_stripped (h.imp_right fun h => h param hparam)

/-- A member keeps its parameters, assertions aside. What takes the place of a nested type has none,
as the type itself. -/
theorem params_patchMember {position : Nat} {nested : Option Member} {m : Member}
    (hnested : ∀ n, nested = some n → n.params = []) :
    (p.patchMember position nested m).params = m.params.map p.stripped := by
  cases m with
  | type d =>
    cases nested with
    | none => rfl
    | some n => exact hnested n rfl
  | field f | property q =>
    simp only [patchMember]
    split <;> rfl
  | constructor _ | method _ | raw _ => rfl

/-- **A new body has no assertion** if all are taken out, or if there was none. -/
theorem assemble_markFree {nested : List (Option Member)}
    (hnested : ∀ m, some m ∈ nested → m.params = [])
    (h : p.stripNullMarkers = true ∨ c.declaration.MarkFree) :
    (p.assemble c nested).MarkFree := by
  refine ⟨nofun, fun m hm q hq => ?_⟩
  have hbody : .member m ∈ p.assembleBody c nested := Declaration.mem_members.mp hm
  rw [assembleBody_eq, List.mem_append, List.mem_append] at hbody
  rcases hbody with hadded | hremaining | haccessor
  · -- Of the new members only the constructor has parameters, those of the header.
    have hmem : m ∈ p.added c := by simpa using hadded
    rcases p.eq_of_mem_added c hmem with ⟨f, rfl⟩ | ⟨f, rfl⟩ | rfl
    · cases hq
    · cases hq
    · obtain ⟨⟨param, name⟩, hparam, rfl⟩ := List.mem_map.mp hq
      exact p.nullAssertion_stripped
        (h.imp_right fun h => h.header param (List.of_mem_zip hparam).1)
  · obtain ⟨⟨item, i⟩, hitem, heq⟩ := List.mem_map.mp hremaining
    have hold : item ∈ c.declaration.body :=
      List.fst_mem_of_mem_zipIdx (List.mem_of_mem_drop hitem)
    cases item with
    | statement _ | comment _ => cases heq
    | member old =>
      obtain rfl := BodyItem.member.inj heq
      have hreplaced : ∀ n, nested.getD i none = some n → n.params = [] := by
        intro n hn
        rw [List.getD_eq_getElem?_getD, Option.getD_eq_iff] at hn
        exact hnested n (List.mem_of_getElem? (hn.resolve_right nofun))
      rw [p.params_patchMember hreplaced] at hq
      exact p.nullAssertion_map_stripped
        (h.imp_right fun h => h.members old (Declaration.mem_members.mpr hold)) q hq
  · obtain ⟨f, -, rfl⟩ := by simpa using haccessor
    cases hq

end Plan

/-! ### The normal form -/

/-- Nothing that the options understand is left to do in a declaration, nested types aside. -/
structure Declaration.Settled (o : Options) (d : Declaration) : Prop where
  kind : d.loweredKind = d.kind
  singleton : d.singleton = false
  params : d.params = none
  constructorAccess : d.constructorAccess = none
  bases : ∀ b ∈ d.bases, b.args = none
  assertions : o.extensions.nullAssertion = true → d.MarkFree
  initializer : o.extensions.unnamedInitializer = true → d.initializerLength = 0

namespace Declaration

variable {o : Options} {d : Declaration}

/-- What is still reported about a settled declaration: its loose statements, all of which stand
after its first member. -/
def settledLints (o : Options) (d : Declaration) : List Diagnostic :=
  if o.extensions.unnamedInitializer then (looseStatements d.body).map d.misplacedLint else []

theorem loweredKind_ne_data (d : Declaration) : d.loweredKind ≠ .data := by
  unfold loweredKind
  split <;> nofun

/-- Without a parameter list only a data class changes its form. -/
theorem loweredKind_eq_kind (hparams : d.params = none) (hkind : d.kind ≠ .data) :
    d.loweredKind = d.kind := by
  unfold loweredKind
  rw [hparams]
  cases hk : d.kind with
  | data => exact absurd hk hkind
  | plain | record => rfl

theorem fault?_of_settled (h : d.Settled o) : d.fault? o = none := by
  have hparams : d.capitalizedParams = [] := by
    simp [capitalizedParams, primaryParams, h.params]
  have hassertion : o.extensions.nullAssertion = true →
      d.assertionFault? o.nullableContext = none :=
    fun hon => assertionFault?_of_markFree (h.assertions hon) _
  unfold fault?
  rw [hparams, h.singleton]
  simpa [shorthandFault?, paramsAt] using hassertion

/-- **Nothing is recognized in a settled declaration.** -/
theorem recognition_of_settled (h : d.Settled o) :
    d.recognition o = ⟨.empty, [], 0, [], d.settledLints o⟩ := by
  have hparams : d.capitalizedParams = [] := by
    simp [capitalizedParams, primaryParams, h.params]
  have hprimary : d.hasPrimaryConstructor = false := by
    simpa [hasPrimaryConstructor, h.params, h.constructorAccess] using h.bases
  have hsites : (if o.extensions.nullAssertion then d.nullSites else []) = [] := by
    split
    · exact nullSites_eq_nil_iff.mpr (h.assertions ‹_›)
    · rfl
  have hlength : (if o.extensions.unnamedInitializer then d.initializerLength else 0) = 0 := by
    split
    · exact h.initializer ‹_›
    · rfl
  have hlints : (if o.extensions.unnamedInitializer then d.initializerLints [] 0 else []) =
      d.settledLints o := by
    unfold settledLints
    split
    · have hloose := d.looseStatements_drop_initializerLength
      rw [h.initializer ‹_›, List.drop_zero] at hloose
      simp [initializerLints, ← hloose]
    · rfl
  unfold recognition
  simp only [hparams, hprimary, hsites, hlength, ite_self, hlints, h.singleton]
  simp [FeatureSet.empty]

end Declaration

/-! ### Full plans settle -/

section FullPlan

variable (o : Options) (importsSystem : Bool) (d : Declaration)

/-- A full plan consumes the unnamed initializer, if that is understood. -/
theorem Context.consumed_fullPlan :
    (Context.of o importsSystem d).fullPlan.consumed =
      if o.extensions.unnamedInitializer then d.initializerLength else 0 := by
  have hread : (Context.of o importsSystem d).fullPlan.consumed =
      if decide (0 < (d.recognition o).initializerEnd) = true then
        (d.recognition o).initializerEnd else 0 := rfl
  have hend : (d.recognition o).initializerEnd =
      if o.extensions.unnamedInitializer then d.initializerLength else 0 := rfl
  rw [hread, ← hend]
  by_cases hpos : 0 < (d.recognition o).initializerEnd
  · simp [hpos]
  · simp [Nat.eq_zero_of_not_pos hpos]

/-- The items that a full plan consumes are no members. -/
theorem Context.isMember_of_mem_take_consumed {item : BodyItem}
    (h : item ∈ d.body.take (Context.of o importsSystem d).fullPlan.consumed) :
    item.isMember = false := by
  rw [Context.consumed_fullPlan] at h
  split at h
  · exact d.isMember_eq_false_of_mem_take h
  · cases h

/-- A full plan takes out assertions if there are any, and if these are understood. -/
theorem Context.stripNullMarkers_fullPlan (hon : o.extensions.nullAssertion = true) :
    (Context.of o importsSystem d).fullPlan.stripNullMarkers = true ∨ d.MarkFree := by
  change (!(if o.extensions.nullAssertion then d.nullSites else []).isEmpty) = true ∨ d.MarkFree
  rw [if_pos hon]
  by_cases hsites : d.nullSites = []
  · exact .inr (Declaration.nullSites_eq_nil_iff.mp hsites)
  · exact .inl (by simpa using hsites)

/-- A full plan leaves no arguments in the base list. -/
theorem Context.bases_fullPlan {nested : List (Option Member)} {b : BaseEntry}
    (hb : b ∈ ((Context.of o importsSystem d).fullPlan.assemble (.of o importsSystem d)
      nested).bases) : b.args = none := by
  cases hprimary : d.hasPrimaryConstructor with
  | true =>
    have hplan : (Context.of o importsSystem d).fullPlan.primary =
        some (Context.of o importsSystem d).primaryPlan := if_pos hprimary
    simp only [Plan.assemble, hplan, Option.map_some, Option.getD_some, Context.primaryPlan,
      List.mem_map] at hb
    obtain ⟨old, -, rfl⟩ := hb
    rfl
  | false =>
    have hplan : (Context.of o importsSystem d).fullPlan.primary = none :=
      if_neg (by rw [Bool.not_eq_true]; exact hprimary)
    simp only [Plan.assemble, hplan, Option.map_none, Option.getD_none] at hb
    simp only [Declaration.hasPrimaryConstructor, Bool.or_eq_false_iff, List.any_eq_false] at hprimary
    simpa using hprimary.2 b hb

/-- **What a full plan makes of a declaration is settled.** -/
theorem Context.assemble_settled {nested : List (Option Member)}
    (hnested : ∀ m, some m ∈ nested → m.params = []) :
    ((Context.of o importsSystem d).fullPlan.assemble (.of o importsSystem d) nested).Settled o where
  kind := Declaration.loweredKind_eq_kind rfl d.loweredKind_ne_data
  singleton := rfl
  params := rfl
  constructorAccess := rfl
  bases := fun b hb => Context.bases_fullPlan o importsSystem d hb
  assertions := fun hon =>
    Plan.assemble_markFree _ _ hnested (Context.stripNullMarkers_fullPlan o importsSystem d hon)
  initializer := by
    intro hon
    rw [Declaration.initializerLength_eq_zero_iff]
    intro item hitem
    have hold := Plan.mem_takeWhile_assembleBody _ _ hitem
    rw [Context.consumed_fullPlan, if_pos hon] at hold
    exact d.isStatement_eq_false_of_initializerLength hold

end FullPlan

/-! ### Lowered declarations -/

section Lowered

variable {o : Options} {importsSystem : Bool}

/-- **A lowered declaration is settled.** -/
theorem Declaration.settled_lowered (d : Declaration) : (d.lowered o importsSystem).Settled o := by
  refine Context.assemble_settled o importsSystem d fun m hm => ?_
  obtain ⟨item, -, hitem⟩ := List.mem_map.mp hm
  exact BodyItem.params_of_replacement? hitem

theorem Plan.type?_patchItem (p : Plan) (position : Nat) (nested : Option Member)
    {item : BodyItem} (h : item.type? = none) : (p.patchItem position nested item).type? = none := by
  match item with
  | .member (.type _) => cases h
  | .member (.field _) | .member (.property _) =>
    simp only [Plan.patchItem, Plan.patchMember]
    split <;> rfl
  | .member (.constructor _) | .member (.method _) | .member (.raw _) | .statement _
  | .comment _ => rfl

/-- New members are no types. -/
theorem Plan.type?_of_mem_added {p : Plan} {c : Context} {m : Member} (h : m ∈ p.added c) :
    (BodyItem.member m).type? = none := by
  rcases p.eq_of_mem_added c h with ⟨f, rfl⟩ | ⟨f, rfl⟩ | rfl
  · rfl
  · rfl
  · rfl

section Lowered

variable {d : Declaration} {c : Context} (hc : Context.of o importsSystem d = c)
include hc

/-- The body of a lowered declaration: the new members, what is left of the items, and the accessor
of a singleton. -/
theorem Context.body_lowered :
    (d.lowered o importsSystem).body = (c.fullPlan.added c).map .member ++
      ((d.body.zipIdx.drop c.fullPlan.consumed).map (fun x =>
          c.fullPlan.patchItem x.2 (x.1.replacement? o importsSystem) x.1) ++
        (c.fullPlan.accessor.toList.map .property).map .member) := by
  have hbody : (d.lowered o importsSystem).body = c.fullPlan.assembleBody c
      (d.body.map (BodyItem.replacement? o importsSystem)) := hc ▸ rfl
  have hsource : c.declaration.body = d.body := hc ▸ rfl
  rw [hbody, Plan.assembleBody_eq, hsource, Plan.remainingBody_map]

/-- **What is collected from a new body**: what the new members give, what each item of the source
gives, and what the accessor gives. Of statements and comments nothing may be collected, because
some of them are consumed. -/
theorem Context.flatMap_body_lowered {α : Type} {f g : BodyItem → List α}
    (hloose : ∀ text, g (.statement text) = [] ∧ g (.comment text) = [])
    (h : ∀ i item, d.body[i]? = some item →
      f (c.fullPlan.patchItem i (item.replacement? o importsSystem) item) = g item) :
    (d.lowered o importsSystem).body.flatMap f =
      (c.fullPlan.added c).flatMap (fun m => f (.member m)) ++
        (d.body.flatMap g ++
          c.fullPlan.accessor.toList.flatMap fun q => f (.member (.property q))) := by
  have hconsumed : (d.body.take c.fullPlan.consumed).flatMap g = [] := by
    rw [List.flatMap_eq_nil_iff]
    intro item hitem
    rw [← hc] at hitem
    have hmember := isMember_of_mem_take_consumed o importsSystem d hitem
    cases item with
    | member m => cases hmember
    | statement text => exact (hloose text).1
    | comment text => exact (hloose text).2
  have hremaining : ((d.body.zipIdx.drop c.fullPlan.consumed).map fun x =>
      c.fullPlan.patchItem x.2 (x.1.replacement? o importsSystem) x.1).flatMap f =
        d.body.flatMap g := by
    conv_rhs => rw [← List.take_append_drop c.fullPlan.consumed d.body]
    rw [List.flatMap_append, hconsumed, List.nil_append, ← Plan.map_fst_zipIdx_drop,
      List.flatMap_map, List.flatMap_map]
    refine List.flatMap_congr ?_
    rintro ⟨item, i⟩ hitem
    exact h i item (List.mem_zipIdx_iff_getElem?.mp (List.mem_of_mem_drop hitem))
  rw [body_lowered hc, List.flatMap_append, List.flatMap_append, hremaining, List.flatMap_map,
    List.flatMap_map, List.flatMap_map]

end Lowered

/-- **What is left of the items of a body.** A type in the new body, and whatever else stands there,
comes from an item that was not consumed. -/
theorem Declaration.mem_body_lowered {d : Declaration} {again : BodyItem}
    (h : again ∈ (d.lowered o importsSystem).body) :
    again.type? = none ∨ ∃ item ∈ d.body, ∃ position, again =
      (Context.of o importsSystem d).fullPlan.patchItem position
        (item.replacement? o importsSystem) item := by
  rw [Context.body_lowered rfl, List.mem_append, List.mem_append] at h
  rcases h with hadded | hremaining | haccessor
  · obtain ⟨m, hm, rfl⟩ := List.mem_map.mp hadded
    exact .inl (Plan.type?_of_mem_added hm)
  · obtain ⟨⟨item, i⟩, hitem, rfl⟩ := List.mem_map.mp hremaining
    exact .inr ⟨item, List.fst_mem_of_mem_zipIdx (List.mem_of_mem_drop hitem), i, rfl⟩
  · obtain ⟨f, -, rfl⟩ := by simpa using haccessor
    exact .inl rfl

/-- **From single declarations to all.** What holds of a lowered declaration holds of every
declaration that desugaring leaves: a type of the new body is what a type of the old one was lowered
to. -/
theorem Declaration.everywhere_of_baseline {H P : Declaration → Prop}
    (hstep : ∀ d : Declaration, H d → P (d.lowered o importsSystem)) (d : Declaration)
    (h : d.Everywhere H) :
    ∀ d', (d.desugarWith o importsSystem Feature.all).result = .baseline d' → d'.Everywhere P := by
  induction d using Declaration.nestedInduction with
  | step header body ih =>
    intro d' hresult
    obtain ⟨d, hd⟩ : ∃ d : Declaration, ⟨header, body⟩ = d := ⟨_, rfl⟩
    have hbody : d.body = body := hd ▸ rfl
    rw [hd] at hresult h
    obtain ⟨hhere, hbelow⟩ := h
    obtain ⟨-, rfl, -⟩ := Declaration.baseline_inv hresult
    refine ⟨hstep d hhere, fun n hn => ?_⟩
    -- A type among the new items can only come from a type that was lowered itself.
    rcases Declaration.mem_body_lowered hn with hnone | ⟨item, hmem, position, heq⟩
    · cases hnone
    cases htype : item.type? with
    | none =>
      have hnone := Plan.type?_patchItem (Context.of o importsSystem d).fullPlan position
        (item.replacement? o importsSystem) htype
      rw [← heq] at hnone
      cases hnone
    | some old =>
      obtain rfl := BodyItem.eq_of_type?_eq_some htype
      rw [BodyItem.replacement?_type] at heq
      have hmember : Member.type n =
          (old.desugarWith o importsSystem Feature.all).result.toMember :=
        BodyItem.member.inj heq
      cases hold : (old.desugarWith o importsSystem Feature.all).result with
      | unchanged source => rw [hold] at hmember; cases hmember
      | baseline old' =>
        rw [hold] at hmember
        obtain rfl := Member.type.inj hmember
        exact ih old (hbody ▸ hmem) (hbelow old hmem) n hold

/-- The same for the items of a file. A declaration that is refused becomes a text. -/
theorem Item.everywhere_desugarAll {H P : Declaration → Prop}
    (hstep : ∀ d : Declaration, H d → P (d.lowered o importsSystem)) (items : List Item)
    (h : ∀ item ∈ items, item.Everywhere H) :
    ∀ item ∈ (Item.desugarAll o importsSystem Feature.all items).result, item.Everywhere P := by
  induction items using Item.listInduction with
  | nil =>
    rw [Item.desugarAll]
    nofun
  | cons first rest hinner ih =>
    have hrest := ih fun item hitem => h item (List.mem_cons_of_mem _ hitem)
    rw [Item.desugarAll]
    intro item hitem
    rcases List.mem_cons.mp hitem with rfl | hitem
    · cases h first List.mem_cons_self with
      | directive u => exact .directive u
      | raw code => exact .raw code
      | comment text => exact .comment text
      | @declaration d hd =>
        rw [Item.desugar]
        change (d.desugarWith o importsSystem Feature.all).result.toItem.Everywhere P
        cases hresult : (d.desugarWith o importsSystem Feature.all).result with
        | baseline d' => exact .declaration (d.everywhere_of_baseline hstep hd d' hresult)
        | unchanged source => exact .raw source
      | @scope name fileScoped inner hscope =>
        rw [Item.desugar]
        exact .scope (hinner name fileScoped inner rfl hscope)
    · exact hrest item hitem

end Lowered

end ClassSugar
