import ClassSugar.Proofs.TreeInduction

/-!
# Desugaring with all rules

With a rule for every feature no plan is refused, and each slot of a plan is filled if and only if
the feature that it belongs to was recognized (`Context.fullPlan`, `Context.plan_all`). So a
declaration is desugared in one of two ways: it is left as written for the first fault that
recognition finds, or its full plan is carried out (`Declaration.desugarWith_all`). Each of the two
can be read back from the result (`Declaration.unchanged_inv`, `Declaration.baseline_inv`).
-/

namespace ClassSugar

/-- What a rule may look at in a declaration that is recognized. -/
def Context.of (o : Options) (importsSystem : Bool) (d : Declaration) : Context :=
  ⟨d, d.recognition o, o, importsSystem⟩

namespace Context

/-- The plan with the slots of every recognized feature filled. -/
def fullPlan (c : Context) : Plan :=
  let features := c.recognition.features
  let params := c.shorthandParams
  { holder := if features.singletonMarker then some c.holder else none
    accessor := if features.singletonMarker then some c.accessor else none
    singletonGuards :=
      if features.singletonMarker then c.constructionTargets.map fun t => (t, c.singletonGuard)
      else []
    nullGuards :=
      if features.nullAssertion then
        c.recognition.nullChecks.map fun site => (site.owner, c.nullGuards site)
      else []
    stripNullMarkers := features.nullAssertion
    initializer :=
      if features.unnamedInitializer then
        c.constructionTargets.map fun t => (t, c.initializerStatements)
      else []
    consumed := if features.unnamedInitializer then c.recognition.initializerEnd else 0
    properties :=
      if features.propertyShorthand then params.map fun (p, _) => c.shorthandProperty p else []
    propertyAssignments :=
      if features.propertyShorthand then params.map fun (p, name) => .assign p.name name else []
    primary := if features.primaryConstructor then some c.primaryPlan else none }

/-- **All rules together fill every slot of a recognized feature**, and refuse nothing. -/
theorem plan_all (c : Context) : c.plan Feature.all = .ok c.fullPlan := by
  have hmissing : c.missingRule? Feature.all = none := by
    unfold missingRule?
    rw [List.find?_eq_none]
    intro f _
    simp [Feature.mem_all f]
  unfold plan fullPlan
  rw [hmissing]
  obtain ⟨d, ⟨⟨singleton, assertion, initializer, shorthand, primary⟩, _, _, _, _⟩, o, s⟩ := c
  -- One case for each set of features; in each both sides are the same record.
  cases singleton <;> cases assertion <;> cases initializer <;> cases shorthand <;>
    cases primary <;> rfl

end Context

section Declarations

variable (o : Options) (importsSystem : Bool)

/-- The outcome for an item of a body, if that is a type. -/
def BodyItem.outcome (item : BodyItem) : Outcome (Option Desugared) :=
  item.desugarType o importsSystem Feature.all

/-- What takes the place of an item that is a type. -/
def BodyItem.replacement? (item : BodyItem) : Option Member :=
  (item.outcome o importsSystem).result.map Desugared.toMember

/-- A declaration in plain C#, as its full plan makes it. -/
def Declaration.lowered (d : Declaration) : Declaration :=
  (Context.of o importsSystem d).fullPlan.assemble (.of o importsSystem d)
    (d.body.map (BodyItem.replacement? o importsSystem))

/-- **The two ways to desugar a declaration**: it is left for its first fault, or it is lowered. -/
theorem Declaration.desugarWith_all (d : Declaration) :
    d.desugarWith o importsSystem Feature.all =
      match d.fault? o with
      | some refusal => d.leave .empty refusal
      | none =>
        { result := .baseline (d.lowered o importsSystem)
          diagnostics := (d.recognition o).diagnostics ++
            d.body.flatMap fun item => (item.outcome o importsSystem).diagnostics
          reports := ⟨d.name, (d.recognition o).features, true, d.span⟩ ::
            d.body.flatMap fun item => (item.outcome o importsSystem).reports } := by
  obtain ⟨header, body⟩ := d
  rw [Declaration.desugarWith, Declaration.recognize, BodyItem.desugarNested_eq_map]
  cases Declaration.fault? ⟨header, body⟩ o with
  | some refusal => rfl
  | none =>
    dsimp only
    rw [Context.plan_all]
    simp only [Declaration.carryOut, List.map_map, List.flatMap_map]
    rfl

variable {o importsSystem}

/-- What is known of a declaration that was lowered. -/
theorem Declaration.baseline_inv {d d' : Declaration}
    (h : (d.desugarWith o importsSystem Feature.all).result = .baseline d') :
    d.fault? o = none ∧ d' = d.lowered o importsSystem ∧
      (d.desugarWith o importsSystem Feature.all).diagnostics = (d.recognition o).diagnostics ++
        d.body.flatMap fun item => (item.outcome o importsSystem).diagnostics := by
  rw [Declaration.desugarWith_all] at h ⊢
  cases hfault : d.fault? o with
  | some refusal => rw [hfault] at h; cases h
  | none =>
    rw [hfault] at h
    cases h
    exact ⟨rfl, rfl, rfl⟩

/-- What is known of a declaration that was left as written. -/
theorem Declaration.unchanged_inv {d : Declaration} {source : Verbatim}
    (h : (d.desugarWith o importsSystem Feature.all).result = .unchanged source) :
    ∃ refusal, d.fault? o = some refusal ∧ source = d.source ∧
      (d.desugarWith o importsSystem Feature.all).diagnostics = [refusal.toDiagnostic d.name] := by
  rw [Declaration.desugarWith_all] at h ⊢
  cases hfault : d.fault? o with
  | some refusal =>
    rw [hfault] at h
    cases h
    exact ⟨refusal, rfl, rfl, rfl⟩
  | none => rw [hfault] at h; cases h

/-! ### Replacements -/

/-- What takes the place of a nested type has no parameters. -/
theorem BodyItem.params_of_replacement? {item : BodyItem} {m : Member}
    (h : item.replacement? o importsSystem = some m) : m.params = [] := by
  obtain ⟨r, -, rfl⟩ := Option.map_eq_some_iff.mp h
  cases r <;> rfl

theorem BodyItem.outcome_type (n : Declaration) :
    (BodyItem.member (.type n)).outcome o importsSystem =
      (n.desugarWith o importsSystem Feature.all).map some :=
  BodyItem.desugarType_type o importsSystem Feature.all n

theorem BodyItem.outcome_of_type?_eq_none {item : BodyItem} (h : item.type? = none) :
    item.outcome o importsSystem = .silent none :=
  BodyItem.desugarType_of_type?_eq_none o importsSystem Feature.all h

theorem BodyItem.replacement?_type (n : Declaration) :
    (BodyItem.member (.type n)).replacement? o importsSystem =
      some (n.desugarWith o importsSystem Feature.all).result.toMember := by
  unfold BodyItem.replacement?
  rw [BodyItem.outcome_type]
  rfl

end Declarations

end ClassSugar
