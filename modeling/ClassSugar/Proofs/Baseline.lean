import ClassSugar.Proofs.Emission
import ClassSugar.Proofs.Reports

/-!
# Three ways to call a declaration plain

Whether a declaration is plain C# is asked in three places, each with a list of its own of what is
not: `Declaration.isBaseline` looks through the whole tree, the writer refuses a declaration with an
extension construct in it, and recognition answers with features and lints. This module compares
them.

* `baseline_iff_written` — what is baseline is what the writer accepts, but for loose statements:
  the writer takes those for text and has nothing against them.
* `baseline_iff_unremarked` — recognition does not look at the form in which a declaration is
  written. It has nothing to say about a declaration without nested types exactly if that one would
  be baseline in the form that it is lowered to. So nothing is said about a `data class` without any
  other extension in it, although it is not baseline; and that is the only difference.

Both come from one reading of `isBaseline`, declaration by declaration
(`Declaration.isBaseline_iff_everywhere`).
-/

namespace ClassSugar

variable {d : Declaration}

/-! ### Baseline, declaration by declaration -/

namespace Declaration

/-- No item of the body is a loose statement. -/
def StatementFree (d : Declaration) : Prop :=
  ∀ item ∈ d.body, item.isStatement = false

/-- A declaration is plain and has no loose statement, nested types aside. -/
structure IsBare (d : Declaration) : Prop where
  plain : d.IsPlain
  statementFree : d.StatementFree

/-- Without a parameter list the form of a declaration is its lowered form, unless it is a data
class. -/
theorem kind_eq_loweredKind_iff (hparams : d.params = none) :
    d.kind = d.loweredKind ↔ d.kind ≠ .data :=
  ⟨fun h => h ▸ d.loweredKind_ne_data, fun h => (loweredKind_eq_kind hparams h).symm⟩

theorem headerIsBaseline_iff :
    d.headerIsBaseline = true ↔ d.kind ≠ .data ∧ d.singleton = false ∧ d.params = none ∧
      d.constructorAccess = none ∧ ∀ b ∈ d.bases, b.args = none := by
  simp only [headerIsBaseline, Bool.and_eq_true, beq_iff_eq, Bool.not_eq_true',
    Option.isNone_iff_eq_none, List.all_eq_true]
  constructor
  · rintro ⟨⟨⟨⟨hkind, hsingleton⟩, hparams⟩, haccess⟩, hbases⟩
    exact ⟨(kind_eq_loweredKind_iff hparams).mp hkind, hsingleton, hparams, haccess, hbases⟩
  · rintro ⟨hkind, hsingleton, hparams, haccess, hbases⟩
    exact ⟨⟨⟨⟨(kind_eq_loweredKind_iff hparams).mpr hkind, hsingleton⟩, hparams⟩, haccess⟩, hbases⟩

/-- What the writer has against a declaration is in its header, or it is an assertion. -/
theorem isPlain_iff :
    d.IsPlain ↔
      d.headerIsBaseline = true ∧ ∀ m ∈ d.members, ∀ p ∈ m.params, p.nullAssertion = none := by
  -- The constructs are looked for one after the other.
  have hnext : ∀ {p : Prop} [Decidable p] {found : Construct} {rest : Option Construct},
      (if p then some found else rest) = none ↔ ¬p ∧ rest = none := by
    intro p _ found rest
    split <;> simp_all
  rw [headerIsBaseline_iff, IsPlain, construct?]
  simp only [hnext]
  simp [and_assoc]

end Declaration

/-- A member that is no type is baseline if no parameter of it is asserted. -/
theorem BodyItem.isBaseline_iff {item : BodyItem} :
    item.isBaseline = true ↔ item.isStatement = false ∧
      (∀ m, item = .member m → ∀ p ∈ m.params, p.nullAssertion = none) ∧
      ∀ n, item = .member (.type n) → n.isBaseline = true := by
  match item with
  | .statement _ | .comment _ => simp [BodyItem.isBaseline, BodyItem.isStatement]
  | .member (.type n) =>
    simp [BodyItem.isBaseline, Member.isBaseline, BodyItem.isStatement, Member.params]
  | .member (.field _) | .member (.property _) | .member (.constructor _) | .member (.method _)
  | .member (.raw _) => simp [BodyItem.isBaseline, Member.isBaseline, BodyItem.isStatement]

theorem BodyItem.areBaseline_iff {body : List BodyItem} :
    BodyItem.areBaseline body = true ↔ ∀ item ∈ body, item.isBaseline = true := by
  induction body with
  | nil => simp [BodyItem.areBaseline]
  | cons item rest ih => rw [BodyItem.areBaseline, Bool.and_eq_true, ih, List.forall_mem_cons]

namespace Declaration

/-- One level of `isBaseline`: the declaration itself, and the types nested in it. -/
theorem isBaseline_iff :
    d.isBaseline = true ↔ d.IsBare ∧ ∀ n, .member (.type n) ∈ d.body → n.isBaseline = true := by
  obtain ⟨header, body⟩ := d
  rw [isBaseline, Bool.and_eq_true, BodyItem.areBaseline_iff]
  simp only [BodyItem.isBaseline_iff]
  constructor
  · rintro ⟨hheader, hbody⟩
    have hmarks : ∀ m ∈ members ⟨header, body⟩, ∀ p ∈ m.params, p.nullAssertion = none :=
      fun m hm => (hbody _ (mem_members.mp hm)).2.1 m rfl
    refine ⟨⟨isPlain_iff.mpr ⟨hheader, hmarks⟩, fun item hitem => (hbody item hitem).1⟩, ?_⟩
    exact fun n hn => (hbody _ hn).2.2 n rfl
  · rintro ⟨⟨hplain, hfree⟩, htypes⟩
    obtain ⟨hheader, hmarks⟩ := isPlain_iff.mp hplain
    refine ⟨hheader, fun item hitem => ⟨hfree item hitem, ?_, ?_⟩⟩
    · rintro m rfl
      exact hmarks m (mem_members.mpr hitem)
    · rintro n rfl
      exact htypes n hitem

/-- **A declaration is baseline if it is bare at every depth.** -/
theorem isBaseline_iff_everywhere (d : Declaration) :
    d.isBaseline = true ↔ d.Everywhere IsBare := by
  induction d using nestedInduction with
  | step header body ih =>
    rw [isBaseline_iff]
    constructor
    · rintro ⟨hbare, htypes⟩
      exact ⟨hbare, fun n hn => (ih n hn).mp (htypes n hn)⟩
    · rintro ⟨hbare, htypes⟩
      exact ⟨hbare, fun n hn => (ih n hn).mpr (htypes n hn)⟩

/-- What holds everywhere in a declaration holds of all that are listed with it. -/
theorem everywhere_iff_withNested {P : Declaration → Prop} (d : Declaration) :
    d.Everywhere P ↔ ∀ n ∈ d.withNested, P n := by
  induction d using typeInduction with
  | step d ih =>
    rw [withNested_eq, List.forall_mem_cons]
    simp only [List.mem_flatMap, forall_exists_index, and_imp]
    constructor
    · rintro ⟨hhere, hbelow⟩
      exact ⟨hhere, fun n m hm => (ih m hm).mp (hbelow m (mem_nestedTypes.mp hm)) n⟩
    · rintro ⟨hhere, hbelow⟩
      exact ⟨hhere, fun m hm => (ih m (mem_nestedTypes.mpr hm)).mpr
        fun n => hbelow n m (mem_nestedTypes.mpr hm)⟩

/-- A declaration is written in every layout or in none. -/
theorem emit_isOk_iff (layout : Layout) (d : Declaration) :
    (∃ text, d.emit layout = .ok text) ↔ d.Everywhere IsPlain := by
  rw [← Emit.declaration_isOk_iff, emit]
  cases Emit.declaration d with
  | error e => simp [Except.map]
  | ok rows => simp [Except.map]

end Declaration

/-- **Baseline is what the writer accepts, but for loose statements.** -/
theorem baseline_iff_written (layout : Layout) (d : Declaration) :
    d.isBaseline = true ↔ (∃ text, d.emit layout = .ok text) ∧
      ∀ n ∈ d.withNested, ∀ item ∈ n.body, item.isStatement = false := by
  rw [d.isBaseline_iff_everywhere, d.emit_isOk_iff, d.everywhere_iff_withNested,
    d.everywhere_iff_withNested]
  constructor
  · exact fun h => ⟨fun n hn => (h n hn).plain, fun n hn => (h n hn).statementFree⟩
  · exact fun ⟨hplain, hfree⟩ n hn => ⟨hplain n hn, hfree n hn⟩

/-! ### Baseline against recognition -/

theorem FeatureSet.isEmpty_iff {s : FeatureSet} : s.isEmpty = true ↔ s = .empty := by
  refine ⟨fun h => ext_contains fun f => ?_, fun h => h ▸ rfl⟩
  rw [contains_empty, Bool.eq_false_iff]
  intro hf
  rw [← mem_toList, List.isEmpty_iff.mp h] at hf
  cases hf

namespace Declaration

/-- Recognition with all extensions finds nothing to do and nothing to say. -/
def Unremarked (d : Declaration) : Prop :=
  ∃ r, d.recognize {} = .ok r ∧ r.features = .empty ∧ r.diagnostics = []

/-- All that is said about a declaration and the types nested in it is that they use no feature. -/
def LabelledBaseline (importsSystem : Bool) (d : Declaration) : Prop :=
  (d.desugarWith {} importsSystem Feature.all).diagnostics = [] ∧
    ∀ r ∈ (d.desugarWith {} importsSystem Feature.all).reports, r.features.isEmpty = true

/-- The declaration in the form that it is lowered to, and with nothing else changed. -/
def inLoweredForm (d : Declaration) : Declaration :=
  { d with kind := d.loweredKind }

theorem looseStatements_eq_nil_iff {items : List BodyItem} :
    looseStatements items = [] ↔ ∀ item ∈ items, item.isStatement = false := by
  refine ⟨fun h item hitem => ?_, looseStatements_eq_nil⟩
  have hnone := List.filterMap_eq_nil_iff.mp h item hitem
  cases item with
  | statement code => cases hnone
  | member _ | comment _ => rfl

/-- Statements stand before the first member or after it. -/
theorem statementFree_iff :
    d.StatementFree ↔
      d.initializerLength = 0 ∧ looseStatements (d.body.drop d.firstMemberIndex) = [] := by
  constructor
  · intro h
    refine ⟨(d.initializerLength_eq_zero_iff).mpr fun item hitem => ?_, ?_⟩
    · exact h item ((List.takeWhile_prefix _).subset hitem)
    · exact looseStatements_eq_nil fun item hitem => h item (List.mem_of_mem_drop hitem)
  · rintro ⟨hlength, hloose⟩
    rw [← d.looseStatements_drop_initializerLength, hlength, List.drop_zero] at hloose
    exact looseStatements_eq_nil_iff.mp hloose

/-- A declaration that is bare is settled. -/
theorem IsBare.settled (h : d.IsBare) : d.Settled {} := by
  obtain ⟨hheader, hmarks⟩ := isPlain_iff.mp h.plain
  obtain ⟨hkind, hsingleton, hparams, haccess, hbases⟩ := headerIsBaseline_iff.mp hheader
  refine ⟨loweredKind_eq_kind hparams hkind, hsingleton, hparams, haccess, hbases,
    fun _ => ⟨?_, hmarks⟩, fun _ => (statementFree_iff.mp h.statementFree).1⟩
  simp [primaryParams, hparams]

theorem IsBare.kind_ne_data (h : d.IsBare) : d.kind ≠ .data :=
  h.settled.kind ▸ d.loweredKind_ne_data

/-- **Nothing is said about what is bare.** -/
theorem IsBare.unremarked (h : d.IsBare) : d.Unremarked := by
  refine ⟨d.recognition {}, ?_, ?_, ?_⟩
  · rw [recognize, fault?_of_settled h.settled]
  · rw [recognition_of_settled h.settled]
  · rw [recognition_of_settled h.settled, settledLints, looseStatements_eq_nil h.statementFree]
    rfl

/-- **What nothing is said about is bare in its lowered form.** Each feature and each lint speaks
for one of the things that a bare declaration does not have. -/
theorem Unremarked.isBare (h : d.Unremarked) : d.inLoweredForm.IsBare := by
  obtain ⟨r, hr, hfeatures, hlints⟩ := h
  have hrecognition : d.recognition {} = r := by
    unfold recognize at hr
    split at hr
    · cases hr
    · exact Except.ok.inj hr
  subst hrecognition
  have hsingleton : d.singleton = false := congrArg FeatureSet.singletonMarker hfeatures
  have hmarks : d.MarkFree := by
    have hsites : (!d.nullSites.isEmpty) = false := congrArg FeatureSet.nullAssertion hfeatures
    exact nullSites_eq_nil_iff.mp (by simpa using hsites)
  have hlength : d.initializerLength = 0 := by
    have hnone : decide (0 < d.initializerLength) = false :=
      congrArg FeatureSet.unnamedInitializer hfeatures
    simpa using hnone
  have hprimary : d.hasPrimaryConstructor = false :=
    congrArg FeatureSet.primaryConstructor hfeatures
  simp only [hasPrimaryConstructor, Bool.or_eq_false_iff, Option.isSome_eq_false_iff,
    Option.isNone_iff_eq_none, List.any_eq_false] at hprimary
  obtain ⟨⟨hparams, haccess⟩, hbases⟩ := hprimary
  have hloose : looseStatements (d.body.drop d.firstMemberIndex) = [] :=
    List.map_eq_nil_iff.mp (List.append_eq_nil_iff.mp hlints).2
  refine ⟨isPlain_iff.mpr ⟨headerIsBaseline_iff.mpr ⟨d.loweredKind_ne_data, hsingleton, hparams,
    haccess, fun b hb => ?_⟩, hmarks.members⟩, ?_⟩
  · simpa using hbases b hb
  · exact statementFree_iff.mpr ⟨hlength, hloose⟩

/-- A declaration that is bare in its lowered form is bare as it stands, unless it is a data
class. -/
theorem IsBare.of_inLoweredForm (h : d.inLoweredForm.IsBare) (hkind : d.kind ≠ .data) :
    d.IsBare := by
  have hparams : d.params = none := h.settled.params
  have hsame : d.inLoweredForm = d := by
    unfold inLoweredForm
    rw [loweredKind_eq_kind hparams hkind]
    cases d
    rfl
  exact hsame ▸ h

/-- Nothing nested: what is bare is baseline. -/
theorem isBaseline_iff_isBare (h : d.nestedTypes = []) :
    d.isBaseline = true ↔ d.IsBare := by
  rw [isBaseline_iff, and_iff_left]
  intro n hn
  rw [← mem_nestedTypes, h] at hn
  cases hn

/-- What is said about a declaration without nested types is what recognition says. -/
theorem labelledBaseline_iff (h : d.nestedTypes = []) (importsSystem : Bool) :
    d.LabelledBaseline importsSystem ↔ d.Unremarked := by
  obtain ⟨hdiagnostics, hreports⟩ := desugarWith_says {} importsSystem d
  have hreached : d.reached (isRefused {}) = [d] := by
    rw [reached_eq, h, List.flatMap_nil, ite_self]
  rw [hreached, List.flatMap_singleton] at hdiagnostics
  rw [hreached, List.map_singleton] at hreports
  rw [LabelledBaseline, hdiagnostics, hreports, List.forall_mem_singleton, Unremarked, recognize,
    ownDiagnostics, ownReport]
  cases d.fault? {} with
  | some refusal => simp
  | none => simp [FeatureSet.isEmpty_iff, and_comm]

end Declaration

/-- **Recognition does not see the form of a declaration.** A declaration without nested types is
baseline if nothing is said about it and it is no data class. -/
theorem baseline_iff_unremarked {d : Declaration} (h : d.nestedTypes = []) (importsSystem : Bool) :
    (d.isBaseline = true ↔ d.Unremarked ∧ d.kind ≠ .data) ∧
      (d.Unremarked ↔ d.inLoweredForm.isBaseline = true) ∧
      (d.LabelledBaseline importsSystem ↔ d.Unremarked) := by
  refine ⟨?_, ?_, d.labelledBaseline_iff h importsSystem⟩
  · rw [Declaration.isBaseline_iff_isBare h]
    refine ⟨fun hbare => ⟨hbare.unremarked, hbare.kind_ne_data⟩, fun ⟨hquiet, hkind⟩ => ?_⟩
    exact hquiet.isBare.of_inLoweredForm hkind
  · rw [Declaration.isBaseline_iff_isBare (d := d.inLoweredForm) h]
    exact ⟨Declaration.Unremarked.isBare, fun hbare => hbare.unremarked⟩

/-- `data class P { }`. -/
def bareData : Declaration where
  attributes := []
  modifiers := []
  kind := .data
  singleton := false
  name := "P"
  typeParams := none
  params := none
  constructorAccess := none
  bases := []
  constraints := []
  source := .made ""
  span := .nowhere
  body := []

theorem baseline_iff_unremarked_bareData :
    bareData.nestedTypes = [] ∧ bareData.Unremarked ∧ bareData.LabelledBaseline false ∧
      bareData.isBaseline = false := by
  obtain ⟨hbaseline, hlowered, hlabelled⟩ := baseline_iff_unremarked (d := bareData) rfl false
  have hquiet : bareData.Unremarked := hlowered.mpr rfl
  refine ⟨rfl, hquiet, hlabelled.mpr hquiet, ?_⟩
  exact Bool.eq_false_iff.mpr fun h => (hbaseline.mp h).2 rfl

end ClassSugar
