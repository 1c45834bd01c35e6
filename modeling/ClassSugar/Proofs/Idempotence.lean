import ClassSugar.Proofs.Settled

/-!
# Desugaring twice

What desugaring makes of a declaration is a fixed point of desugaring, tree for tree. The second run
recognizes nothing anywhere, and all that it still reports are the loose statements after a first
member, which the first run reported as well.

The argument goes down the nested types. A declaration that was carried out is settled, so its second
plan is empty, and an empty plan changes nothing but nested types. A nested type of the result is one
of three things: the result of a nested type that was carried out, which does not change by
induction; the text of one that was refused, which is no type any more; or nothing at all, since new
members are fields, properties and constructors.
-/

namespace ClassSugar

/-- Whether a diagnostic is about a loose statement after the first member. -/
def Diagnostic.isMisplaced (d : Diagnostic) : Bool :=
  d.code == .misplacedInitializer

/-- A declaration was carried out, and nothing was recognized in it. -/
def DeclarationReport.IsPlain (r : DeclarationReport) : Prop :=
  r.desugared = true ∧ r.features = .empty

/-! ### Empty plans -/

theorem Context.fullPlan_of_settled {o : Options} {importsSystem : Bool} {d : Declaration}
    (h : d.Settled o) : (Context.of o importsSystem d).fullPlan = {} := by
  have hrecognition : (Context.of o importsSystem d).recognition =
      ⟨.empty, [], 0, [], d.settledLints o⟩ := Declaration.recognition_of_settled h
  unfold Context.fullPlan
  simp [hrecognition, FeatureSet.empty]

/-- An empty plan leaves every member as it is, nested types aside. -/
theorem Plan.patchMember_empty (position : Nat) (nested : Option Member) (m : Member)
    (h : ∀ n, m = .type n → nested.getD m = m) :
    Plan.patchMember {} position nested m = m := by
  cases m with
  | type n => exact h n rfl
  | constructor k =>
    have hparams : k.params.map (Plan.stripped {}) = k.params := List.map_id k.params
    simp [Plan.patchMember, Plan.opening, hparams]
  | method k =>
    have hparams : k.params.map (Plan.stripped {}) = k.params := List.map_id k.params
    simp [Plan.patchMember, Plan.guardedBody, hparams]
  | field _ | property _ | raw _ => rfl

/-- **An empty plan changes nothing** in a settled declaration whose nested types do not change. -/
theorem Plan.assemble_empty {o : Options} {importsSystem : Bool} {d : Declaration}
    (h : d.Settled o) (replace : BodyItem → Option Member)
    (hreplace : ∀ n, .member (.type n) ∈ d.body →
      (replace (.member (.type n))).getD (.type n) = .type n) :
    Plan.assemble {} (.of o importsSystem d) (d.body.map replace) = d := by
  have hitem : ∀ x ∈ d.body.zipIdx, Plan.patchItem {} x.2 (replace x.1) x.1 = x.1 := by
    rintro ⟨item, i⟩ hmem
    have hbody : item ∈ d.body := List.fst_mem_of_mem_zipIdx hmem
    cases item with
    | statement _ | comment _ => rfl
    | member m =>
      refine congrArg BodyItem.member (Plan.patchMember_empty i _ m ?_)
      rintro n rfl
      exact hreplace n hbody
  have hbody : Plan.assembleBody {} (.of o importsSystem d) (d.body.map replace) = d.body := by
    calc Plan.assembleBody {} (.of o importsSystem d) (d.body.map replace)
        = Plan.remainingBody {} d.body (d.body.map replace) := by
          rw [Plan.assembleBody_eq]
          exact List.append_nil _
      _ = d.body.zipIdx.map fun x => Plan.patchItem {} x.2 (replace x.1) x.1 :=
          Plan.remainingBody_map {} d.body replace
      _ = d.body.zipIdx.map Prod.fst := List.map_congr_left hitem
      _ = d.body := List.zipIdx_map_fst 0 d.body
  have hheader : (Plan.assemble {} (.of o importsSystem d) (d.body.map replace)).toHeader =
      d.toHeader := by
    change { d.toHeader with
      kind := d.loweredKind, singleton := false, params := none, constructorAccess := none } = _
    rw [h.kind, ← h.singleton, ← h.params, ← h.constructorAccess]
  calc Plan.assemble {} (.of o importsSystem d) (d.body.map replace)
      = ⟨(Plan.assemble {} (.of o importsSystem d) (d.body.map replace)).toHeader,
          Plan.assembleBody {} (.of o importsSystem d) (d.body.map replace)⟩ := rfl
    _ = ⟨d.toHeader, d.body⟩ := by rw [hheader, hbody]
    _ = d := by cases d; rfl

/-! ### The second run -/

section Again

variable {o : Options} {importsSystem : Bool}

/-- **The second run on one declaration.** A settled declaration whose nested types do not change
does not change either. -/
theorem Declaration.desugarWith_of_settled {d : Declaration} (h : d.Settled o)
    (hnested : ∀ n, .member (.type n) ∈ d.body →
      (n.desugarWith o importsSystem Feature.all).result = .baseline n) :
    d.desugarWith o importsSystem Feature.all =
      { result := .baseline d
        diagnostics := d.settledLints o ++
          d.body.flatMap fun item => (item.outcome o importsSystem).diagnostics
        reports := ⟨d.name, .empty, true, d.span⟩ ::
          d.body.flatMap fun item => (item.outcome o importsSystem).reports } := by
  have hlowered : d.lowered o importsSystem = d := by
    unfold Declaration.lowered
    rw [Context.fullPlan_of_settled h]
    refine Plan.assemble_empty h _ fun n hn => ?_
    rw [BodyItem.replacement?_type, hnested n hn]
    rfl
  rw [Declaration.desugarWith_all, Declaration.fault?_of_settled h]
  simp only [hlowered, Declaration.recognition_of_settled h]

/-- A declaration does not change when it is desugared, nothing is recognized in it, and of what was
said before only the misplaced statements are said again. -/
structure Declaration.Rests (o : Options) (importsSystem : Bool) (said : List Diagnostic)
    (d : Declaration) : Prop where
  result : (d.desugarWith o importsSystem Feature.all).result = .baseline d
  reports : ∀ r ∈ (d.desugarWith o importsSystem Feature.all).reports, r.IsPlain
  diagnostics : (d.desugarWith o importsSystem Feature.all).diagnostics =
    said.filter Diagnostic.isMisplaced

/-- A refusal is about something else than a misplaced statement. -/
theorem Declaration.filter_isMisplaced_of_unchanged {d : Declaration} {source : Verbatim}
    (h : (d.desugarWith o importsSystem Feature.all).result = .unchanged source) :
    (d.desugarWith o importsSystem Feature.all).diagnostics.filter Diagnostic.isMisplaced = [] := by
  obtain ⟨⟨cause, span⟩, -, -, hdiagnostics⟩ := Declaration.unchanged_inv h
  rw [hdiagnostics]
  cases cause <;> rfl

/-- **One item, twice.** What takes the place of an item rests if the nested type that the item may
be leaves a declaration that does. -/
theorem BodyItem.outcome_patchItem (p : Plan) (position : Nat) {item again : BodyItem}
    (hagain : again = p.patchItem position (item.replacement? o importsSystem) item)
    (hrests : ∀ n n', item = .member (.type n) →
      (n.desugarWith o importsSystem Feature.all).result = .baseline n' →
        n'.Rests o importsSystem (n.desugarWith o importsSystem Feature.all).diagnostics) :
    (∀ n, again = .member (.type n) →
        (n.desugarWith o importsSystem Feature.all).result = .baseline n) ∧
      (∀ r ∈ (again.outcome o importsSystem).reports, r.IsPlain) ∧
      (again.outcome o importsSystem).diagnostics =
        (item.outcome o importsSystem).diagnostics.filter Diagnostic.isMisplaced := by
  cases htype : item.type? with
  | none =>
    have hnone : again.type? = none := hagain ▸ p.type?_patchItem position _ htype
    rw [BodyItem.outcome_of_type?_eq_none hnone, BodyItem.outcome_of_type?_eq_none htype]
    refine ⟨fun n hn => ?_, nofun, rfl⟩
    rw [hn] at hnone
    cases hnone
  | some n =>
    obtain rfl := BodyItem.eq_of_type?_eq_some htype
    have hmember : again = .member (n.desugarWith o importsSystem Feature.all).result.toMember := by
      rw [hagain, BodyItem.replacement?_type]
      rfl
    rw [BodyItem.outcome_type n]
    cases hresult : (n.desugarWith o importsSystem Feature.all).result with
    | baseline n' =>
      have hn' := hrests n n' rfl hresult
      rw [hmember, hresult, Desugared.toMember, BodyItem.outcome_type n']
      refine ⟨fun m hm => ?_, hn'.reports, hn'.diagnostics⟩
      obtain rfl : n' = m := Member.type.inj (BodyItem.member.inj hm)
      exact hn'.result
    | unchanged source =>
      -- A refused type has become a text, so the second run does not come across it.
      rw [hmember, hresult, Desugared.toMember, BodyItem.outcome_of_type?_eq_none rfl]
      exact ⟨nofun, nofun, (Declaration.filter_isMisplaced_of_unchanged hresult).symm⟩

/-! ### What the first run says and leaves -/

/-- Of the lints of a declaration, those about misplaced statements. -/
theorem Declaration.filter_isMisplaced_initializerLints (d : Declaration) (shorthand : List Nat)
    (initializerEnd : Nat) :
    (d.initializerLints shorthand initializerEnd).filter Diagnostic.isMisplaced =
      (looseStatements (d.body.drop d.firstMemberIndex)).map d.misplacedLint := by
  unfold Declaration.initializerLints
  -- The lints about statements that read a property go, those about misplaced ones stay.
  rw [List.filter_append, List.filter_eq_nil_iff.mpr, List.filter_eq_self.mpr, List.nil_append]
  · intro lint hlint
    obtain ⟨code, -, rfl⟩ := List.mem_map.mp hlint
    rfl
  · intro lint hlint
    obtain ⟨code, -, hlint⟩ := List.mem_flatMap.mp hlint
    obtain ⟨name, -, rfl⟩ := List.mem_map.mp hlint
    nofun

/-- The misplaced statements that the first run reports are the loose statements of the result. -/
theorem Declaration.filter_isMisplaced_recognition (d : Declaration) (importsSystem : Bool) :
    (d.recognition o).diagnostics.filter Diagnostic.isMisplaced =
      (d.lowered o importsSystem).settledLints o := by
  have hread : (d.recognition o).diagnostics =
      if o.extensions.unnamedInitializer then
        d.initializerLints (d.recognition o).shorthand (d.recognition o).initializerEnd
      else [] := rfl
  unfold Declaration.settledLints
  rw [hread]
  by_cases hon : o.extensions.unnamedInitializer = true
  · have hbody : looseStatements (d.lowered o importsSystem).body =
        looseStatements (d.body.drop d.firstMemberIndex) := by
      refine (Plan.looseStatements_assembleBody _ _ _).trans ?_
      rw [Context.consumed_fullPlan, if_pos hon]
      exact d.looseStatements_drop_initializerLength
    rw [if_pos hon, if_pos hon, d.filter_isMisplaced_initializerLints, hbody]
    rfl
  · rw [if_neg hon, if_neg hon, List.filter_nil]

/-- What is collected from the types of a new body is what each item of the old one contributes. -/
theorem Declaration.flatMap_types_lowered {α : Type} {d : Declaration} {f g : BodyItem → List α}
    (hf : ∀ item, item.type? = none → f item = [])
    (hg : ∀ item, item.type? = none → g item = [])
    (h : ∀ item ∈ d.body, ∀ position, f ((Context.of o importsSystem d).fullPlan.patchItem position
      (item.replacement? o importsSystem) item) = g item) :
    (d.lowered o importsSystem).body.flatMap f = d.body.flatMap g := by
  rw [Context.flatMap_body_lowered rfl (fun _ => ⟨hg _ rfl, hg _ rfl⟩)
      fun i item hitem => h item (List.mem_of_getElem? hitem) i,
    List.flatMap_eq_nil_iff.mpr fun m hm => hf _ (Plan.type?_of_mem_added hm),
    List.flatMap_eq_nil_iff.mpr fun q _ => hf _ rfl, List.nil_append, List.append_nil]

/-- **A declaration that was lowered rests.** -/
theorem Declaration.rests_of_baseline (d : Declaration) :
    ∀ d', (d.desugarWith o importsSystem Feature.all).result = .baseline d' →
      d'.Rests o importsSystem (d.desugarWith o importsSystem Feature.all).diagnostics := by
  induction d using Declaration.nestedInduction with
  | step header body ih =>
    intro d' hresult
    obtain ⟨d, hd⟩ : ∃ d : Declaration, ⟨header, body⟩ = d := ⟨_, rfl⟩
    have hbody : d.body = body := hd ▸ rfl
    rw [hd] at hresult ⊢
    obtain ⟨-, rfl, hdiagnostics⟩ := Declaration.baseline_inv hresult
    -- What is known of the items of the new body, by induction on the types among the old ones.
    have hitem : ∀ item ∈ d.body, ∀ position, _ := fun item hmem position =>
      @BodyItem.outcome_patchItem o importsSystem (Context.of o importsSystem d).fullPlan position
        item _ rfl fun n n' hn => ih n (hbody ▸ hn ▸ hmem) n'
    have hnested : ∀ n, .member (.type n) ∈ (d.lowered o importsSystem).body →
        (n.desugarWith o importsSystem Feature.all).result = .baseline n := by
      intro n hn
      rcases Declaration.mem_body_lowered hn with hnone | ⟨item, hmem, position, heq⟩
      · cases hnone
      · exact (hitem item hmem position).1 n heq.symm
    have hagain := Declaration.desugarWith_of_settled d.settled_lowered hnested
    refine ⟨?_, ?_, ?_⟩
    · rw [hagain]
    · -- The report of the declaration itself, and those of the types among its items.
      rw [hagain]
      intro r hr
      rcases List.mem_cons.mp hr with rfl | hr
      · exact ⟨rfl, rfl⟩
      obtain ⟨again, hmem, hr⟩ := List.mem_flatMap.mp hr
      rcases Declaration.mem_body_lowered hmem with hnone | ⟨item, hold, position, rfl⟩
      · rw [BodyItem.outcome_of_type?_eq_none hnone] at hr
        cases hr
      · exact (hitem item hold position).2.1 r hr
    · rw [hagain, hdiagnostics, List.filter_append, List.filter_flatMap,
        d.filter_isMisplaced_recognition importsSystem]
      refine congrArg ((d.lowered o importsSystem).settledLints o ++ ·)
        (Declaration.flatMap_types_lowered ?_ ?_ ?_)
      · intro item hnone
        rw [BodyItem.outcome_of_type?_eq_none hnone]
        rfl
      · intro item hnone
        rw [BodyItem.outcome_of_type?_eq_none hnone]
        rfl
      · exact fun item hmem position => (hitem item hmem position).2.2

end Again

/-- **Desugaring is idempotent.** If a declaration is desugared at all, then desugaring the result
gives the same tree, reports every declaration in it as carried out and without a feature, and has
only the misplaced statements of the first run to say, in the same order. -/
theorem desugar_idempotent {o : Options} {d d' : Declaration}
    (h : (d.desugar o).result = .baseline d') :
    (d'.desugar o).result = .baseline d' ∧
      (∀ r ∈ (d'.desugar o).reports, r.desugared = true ∧ r.features = .empty) ∧
      (d'.desugar o).diagnostics =
        (d.desugar o).diagnostics.filter fun said => said.code == .misplacedInitializer := by
  have hrests : d'.Rests o false (d.desugarWith o false Feature.all).diagnostics :=
    d.rests_of_baseline d' h
  exact ⟨hrests.result, hrests.reports, hrests.diagnostics⟩

/-- A class with a loose statement before and one after its first member, and a nested singleton that
is refused for its parameter. -/
def guardedOuter : Declaration where
  attributes := []
  modifiers := []
  kind := .plain
  singleton := false
  name := "Outer"
  typeParams := none
  params := some [⟨[], [], ⟨"string"⟩, "Name", none, some .byMarks, .nowhere⟩]
  constructorAccess := none
  bases := [⟨"Base", some "Name"⟩]
  constraints := []
  source := .made ""
  span := .nowhere
  body := [
    .statement (.made "Run();"),
    .member (.field ⟨[], [], ⟨"int"⟩, "count", none, .nowhere⟩),
    .statement (.made "Late();"),
    .member (.type {
      attributes := []
      modifiers := []
      kind := .plain
      singleton := true
      name := "Inner"
      typeParams := none
      params := some [⟨[], [], ⟨"int"⟩, "size", none, none, .nowhere⟩]
      constructorAccess := none
      bases := []
      constraints := []
      source := .made "singleton class Inner(int size);"
      span := .nowhere
      body := [] })]

/-- The second run reports the misplaced statement only, the first run also the refusal. -/
theorem desugar_idempotent_guardedOuter :
    ∃ d', (guardedOuter.desugar {}).result = .baseline d' ∧ (d'.desugar {}).result = .baseline d' ∧
      (guardedOuter.desugar {}).diagnostics.map (·.code) =
        [.misplacedInitializer, .singletonParameters] ∧
      (d'.desugar {}).diagnostics.map (·.code) = [.misplacedInitializer] := by
  have h : (guardedOuter.desugar {}).result = .baseline (guardedOuter.lowered {} false) := rfl
  refine ⟨_, h, (desugar_idempotent h).1, rfl, ?_⟩
  rw [(desugar_idempotent h).2.2]
  rfl

end ClassSugar
