import ClassSugar.Proofs.TreeInduction

/-!
# The order of rules

A plan has slots, and each of them belongs to one feature. So two rules change a plan in ways that
do not meet, and it does not matter which of them goes first (`Context.applyRule_comm`). A list of
rules is a fold of such steps, so it may be permuted, with any rule left out or repeated
(`Context.plan_perm`).

What a declaration becomes depends on the rules through its plan only, and what a file becomes
through its declarations, so nothing that desugaring returns depends on the order of the rules.

The refusal of a plan is settled by membership alone: it names the first feature that was recognized
and that no rule handles (`Context.plan_eq_error_iff`).
-/

namespace ClassSugar

/-! ### Plans -/

namespace Context

variable (c : Context)

/-- **Two rules commute.** They fill different slots; a rule commutes with itself anyway. -/
theorem applyRule_comm (p : Plan) (f g : Feature) :
    c.applyRule (c.applyRule p f) g = c.applyRule (c.applyRule p g) f := by
  -- Each pair of rules updates different fields of the plan, from the same context.
  cases f <;> cases g <;> rfl

/-- Whether a rule is missing depends on which rules there are, not on their order. -/
theorem missingRule?_perm {rules rules' : List Feature} (h : rules.Perm rules') :
    c.missingRule? rules = c.missingRule? rules' := by
  unfold missingRule?
  congr 1
  funext f
  rw [h.contains_eq]

/-- **A plan does not depend on the order of the rules that make it.** -/
theorem plan_perm {rules rules' : List Feature} (h : rules.Perm rules') :
    c.plan rules = c.plan rules' := by
  have hfold : (rules.filter c.recognition.features.contains).foldl c.applyRule {} =
      (rules'.filter c.recognition.features.contains).foldl c.applyRule {} :=
    (h.filter _).foldl_eq' (fun f _ g _ p => c.applyRule_comm p f g) {}
  unfold plan
  rw [c.missingRule?_perm h, hfold]

end Context

/-- A feature is the first one, in canonical order, that is in a set and that no rule handles. -/
def FeatureSet.IsFirstUnhandled (s : FeatureSet) (rules : List Feature) (f : Feature) : Prop :=
  s.contains f = true ∧ f ∉ rules ∧
    ∃ earlier later, Feature.all = earlier ++ f :: later ∧
      ∀ g ∈ earlier, s.contains g = true → g ∈ rules

namespace Context

variable (c : Context)

theorem missingRule?_eq_some_iff {rules : List Feature} {f : Feature} :
    c.missingRule? rules = some f ↔ c.recognition.features.IsFirstUnhandled rules f := by
  have hhandled : ∀ g, (!decide (c.recognition.features.contains g = true ∧
      (!rules.contains g) = true)) = true ↔
        (c.recognition.features.contains g = true → g ∈ rules) := by
    intro g
    cases c.recognition.features.contains g <;> simp
  unfold missingRule? FeatureSet.toList FeatureSet.IsFirstUnhandled
  rw [List.find?_filter, List.find?_eq_some_iff_append]
  simp only [hhandled]
  simp [and_assoc]

/-- **Why a plan is refused.** -/
theorem plan_eq_error_iff {rules : List Feature} {refusal : Refusal} :
    c.plan rules = .error refusal ↔
      ∃ f, c.recognition.features.IsFirstUnhandled rules f ∧
        refusal = ⟨.missingRule f, c.declaration.span⟩ := by
  unfold plan
  cases hmissing : c.missingRule? rules with
  | none =>
    have hnone : ∀ f, ¬c.recognition.features.IsFirstUnhandled rules f := by
      intro f hf
      rw [c.missingRule?_eq_some_iff.mpr hf] at hmissing
      cases hmissing
    simp [hnone]
  | some f =>
    constructor
    · rintro ⟨⟩
      exact ⟨f, c.missingRule?_eq_some_iff.mp hmissing, rfl⟩
    · rintro ⟨g, hg, rfl⟩
      rw [c.missingRule?_eq_some_iff.mpr hg] at hmissing
      cases hmissing
      rfl

end Context

/-! ### Declarations and files -/

section Perm

variable {rules rules' : List Feature} (h : rules.Perm rules') (o : Options) (importsSystem : Bool)
include h

theorem Declaration.desugarWith_perm (d : Declaration) :
    d.desugarWith o importsSystem rules = d.desugarWith o importsSystem rules' := by
  induction d using Declaration.nestedInduction with
  | step header body ih =>
    have hnested : BodyItem.desugarNested o importsSystem rules body =
        BodyItem.desugarNested o importsSystem rules' body := by
      rw [BodyItem.desugarNested_eq_map, BodyItem.desugarNested_eq_map]
      refine List.map_congr_left fun item hitem => ?_
      cases htype : item.type? with
      | none => simp only [BodyItem.desugarType_of_type?_eq_none _ _ _ htype]
      | some n =>
        obtain rfl : item = .member (.type n) := BodyItem.eq_of_type?_eq_some htype
        rw [BodyItem.desugarType_type, BodyItem.desugarType_type, ih n hitem]
    rw [Declaration.desugarWith, Declaration.desugarWith, hnested]
    simp only [Context.plan_perm _ h]

theorem Item.desugarAll_perm (items : List Item) :
    Item.desugarAll o importsSystem rules items = Item.desugarAll o importsSystem rules' items := by
  induction items using Item.listInduction with
  | nil => simp only [Item.desugarAll]
  | cons item rest hinner ih =>
    have hitem : item.desugar o importsSystem rules = item.desugar o importsSystem rules' := by
      cases item with
      | declaration d => simp only [Item.desugar, d.desugarWith_perm h]
      | scope name fileScoped inner => simp only [Item.desugar, hinner name fileScoped inner rfl]
      | directive _ | raw _ | comment _ => simp only [Item.desugar]
    rw [Item.desugarAll, Item.desugarAll, hitem, ih]

end Perm

/-- **The order of rules is irrelevant.** Two lists of rules that are permutations of each other, with
any rule left out or repeated, make the same plan of every recognized declaration. If there is none,
both refuse for the first recognized feature that no rule handles. So they desugar every file
alike, with the same tree, diagnostics and reports. -/
theorem rule_order_irrelevant {rules rules' : List Feature} (h : rules.Perm rules') (o : Options) :
    (∀ (d : Declaration) (importsSystem : Bool) (r : Recognition), d.recognize o = .ok r →
      Context.plan ⟨d, r, o, importsSystem⟩ rules = Context.plan ⟨d, r, o, importsSystem⟩ rules' ∧
      ∀ refusal, Context.plan ⟨d, r, o, importsSystem⟩ rules = .error refusal ↔
        ∃ f, r.features.IsFirstUnhandled rules f ∧ refusal = ⟨.missingRule f, d.span⟩) ∧
    ∀ u : CompilationUnit, u.desugarWith o rules = u.desugarWith o rules' := by
  refine ⟨fun d importsSystem r _ => ⟨Context.plan_perm _ h, fun refusal => ?_⟩, fun u => ?_⟩
  · exact Context.plan_eq_error_iff ⟨d, r, o, importsSystem⟩
  · unfold CompilationUnit.desugarWith
    rw [Item.desugarAll_perm h]

/-- `data class Point(string Name!!)` with one loose statement: four features at once. -/
def assertedPoint : Declaration where
  attributes := []
  modifiers := ["public"]
  kind := .data
  singleton := false
  name := "Point"
  typeParams := none
  params := some [⟨[], [], ⟨"string"⟩, "Name", none, some .byMarks, .nowhere⟩]
  constructorAccess := none
  bases := []
  constraints := []
  source := .made "data class Point(string Name!!) \x7b Run(); \x7d"
  span := .nowhere
  body := [.statement (.made "Run();")]

/-- Two orders of four rules, one of which is repeated. -/
theorem rule_order_irrelevant_assertedPoint :
    let rules : List Feature := [.propertyShorthand, .nullAssertion, .propertyShorthand,
      .primaryConstructor, .unnamedInitializer]
    let r : Recognition :=
      ⟨⟨false, true, true, true, true⟩, [0], 1, [⟨.constructor, [0]⟩], []⟩
    rules.reverse.Perm rules ∧ assertedPoint.recognize {} = .ok r ∧
      Context.plan ⟨assertedPoint, r, {}, true⟩ rules.reverse =
        Context.plan ⟨assertedPoint, r, {}, true⟩ rules := by
  intro rules r
  have hrecognized : assertedPoint.recognize {} = .ok r := rfl
  exact ⟨rules.reverse_perm, hrecognized,
    ((rule_order_irrelevant rules.reverse_perm {}).1 assertedPoint true r hrecognized).1⟩

end ClassSugar
