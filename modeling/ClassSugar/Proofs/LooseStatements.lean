import ClassSugar.Proofs.Idempotence
import ClassSugar.Proofs.MemberFrame

/-!
# Loose statements

A loose statement of a class body belongs to the unnamed initializer if it stands before every
member, and is reported if it stands behind the first one. Where the initializer ends is decided once,
by recognition; the rule that moves it into constructors and the step that drops it from the body both
go by that number. Here the three are put together.

* `Declaration.Classified` — the number separates the statements before the first member from
  everything else, and what stands behind the first member is reported, one for one and where it
  stands (`BodyItem.lateReport?`).
* `Context.Delivers` — every constructor through which instances are made has the items up to that
  number, all other loose items are still in the body, and none is in both places.

What a constructor of the source becomes is known from the frame of its declaration; that it is found
again at its own place, moved by the members that were added and the items that are gone, is
`Context.getElem?_body_lowered`.
-/

namespace ClassSugar

/-! ### Where the initializer ends -/

/-- What is to be said about an item behind the first member of the declaration `name`: a statement is
reported at its own place, and nothing else is. -/
def BodyItem.lateReport? (name : String) : BodyItem → Option Diagnostic
  | .statement code => some
    { span := code.span
      code := .misplacedInitializer
      message := "statement after the first member is not part of the unnamed initializer; " ++
        "move it above every member"
      declaration := some name }
  | .member _ | .comment _ => none

/-- Where recognition `r` draws the line between the loose statements of a declaration. -/
structure Declaration.Classified (d : Declaration) (r : Recognition) : Prop where
  /-- A member stands where the first member is said to be, unless the body ends there. -/
  first : ∀ item, d.body[d.firstMemberIndex]? = some item → item.isMember = true
  /-- The initializer ends before the first member, and has no member in it. -/
  bounded : r.initializerEnd ≤ d.firstMemberIndex
  memberless : ∀ item ∈ d.body.take r.initializerEnd, item.isMember = false
  /-- It reaches to the last statement before the first member, and no further. -/
  quiet : ∀ item ∈ (d.body.take d.firstMemberIndex).drop r.initializerEnd,
    item.isStatement = false
  closed : ∀ n, r.initializerEnd = n + 1 → ∃ code, d.body[n]? = some (.statement code)
  /-- The feature is recognized exactly if there is such a statement. -/
  recognized : r.features.unnamedInitializer = true ↔
    ∃ item ∈ d.body.take d.firstMemberIndex, item.isStatement = true
  /-- What is reported as SS0001 are the statements from the first member on: one diagnostic for each,
  with its span, in order. -/
  late : r.diagnostics.filter (fun x => x.code.text == "SS0001") =
    (d.body.drop d.firstMemberIndex).filterMap (BodyItem.lateReport? d.name)

namespace Declaration

variable (d : Declaration)

theorem initializerLength_le_firstMemberIndex : d.initializerLength ≤ d.firstMemberIndex := by
  calc d.initializerLength
      ≤ (d.body.take d.firstMemberIndex).reverse.length := (List.dropWhile_sublist _).length_le
    _ ≤ d.firstMemberIndex := by
      rw [List.length_reverse, List.length_take]
      exact Nat.min_le_left _ _

/-- Between the initializer and the first member there is no statement. -/
theorem isStatement_eq_false_of_mem_between {item : BodyItem}
    (h : item ∈ (d.body.take d.firstMemberIndex).drop d.initializerLength) :
    item.isStatement = false := by
  apply d.isStatement_eq_false_of_initializerLength
  -- The items up to the first member are the ones before any member, wherever one starts.
  have hprefix : (d.body.take d.firstMemberIndex).drop d.initializerLength <+:
      d.body.drop d.initializerLength := (List.take_prefix _ _).drop _
  obtain ⟨rest, hrest⟩ := hprefix
  rw [← hrest, List.takeWhile_append_of_pos]
  · exact List.mem_append_left _ h
  · intro other hother
    have hlead : other ∈ d.body.takeWhile fun item => !item.isMember := by
      rw [← take_firstMemberIndex]
      exact List.mem_of_mem_drop hother
    simpa using List.mem_takeWhile_imp hlead

/-- **The initializer ends with a statement.** -/
theorem exists_statement_of_initializerLength {n : Nat} (h : d.initializerLength = n + 1) :
    ∃ code, d.body[n]? = some (.statement code) := by
  obtain ⟨opening, hopening⟩ : ∃ opening,
      (d.body.take d.firstMemberIndex).rdropWhile (fun item => !item.isStatement) = opening :=
    ⟨_, rfl⟩
  have hlength : opening.length = n + 1 := by
    rw [← h, ← hopening]
    simp [List.rdropWhile, initializerLength]
  have hne : opening ≠ [] := by
    intro hnil
    rw [hnil] at hlength
    cases hlength
  have hlast : (opening.getLast hne).isStatement = true := by
    subst hopening
    simpa using List.rdropWhile_last_not _ _ hne
  -- The last item of the initializer is the one before its end in the body.
  have hprefix : opening <+: d.body := by
    rw [← hopening]
    exact (List.rdropWhile_prefix _ _).trans (List.take_prefix _ _)
  have hget : d.body[n]? = some (opening.getLast hne) := by
    obtain ⟨rest, hrest⟩ := hprefix
    rw [← hrest, List.getElem?_append_left (by omega), List.getLast_eq_getElem,
      List.getElem?_eq_getElem (by omega)]
    congr 2
    omega
  rw [hget]
  cases hitem : opening.getLast hne with
  | statement code => exact ⟨code, rfl⟩
  | member m | comment text => rw [hitem] at hlast; cases hlast

theorem map_misplacedLint (items : List BodyItem) :
    (looseStatements items).map d.misplacedLint = items.filterMap (BodyItem.lateReport? d.name) := by
  rw [looseStatements, List.map_filterMap]
  congr 1
  funext item
  cases item <;> rfl

/-- **Recognition draws the line where it should.** -/
theorem classified_recognition {o : Options} (hon : o.extensions.unnamedInitializer = true) :
    d.Classified (d.recognition o) := by
  have hend : (d.recognition o).initializerEnd = d.initializerLength := if_pos hon
  have hlints : (d.recognition o).diagnostics =
      d.initializerLints (d.recognition o).shorthand (d.recognition o).initializerEnd := if_pos hon
  have hfeature : (d.recognition o).features.unnamedInitializer =
      decide (0 < (d.recognition o).initializerEnd) := rfl
  refine ⟨?_, ?_, ?_, ?_, ?_, ?_, ?_⟩
  · intro item hitem
    obtain ⟨hlt, rfl⟩ := List.getElem?_eq_some_iff.mp hitem
    exact List.findIdx_getElem (w := hlt)
  · rw [hend]
    exact d.initializerLength_le_firstMemberIndex
  · rw [hend]
    intro item hitem
    exact d.isMember_eq_false_of_mem_take hitem
  · rw [hend]
    intro item hitem
    exact d.isStatement_eq_false_of_mem_between hitem
  · rw [hend]
    intro n hn
    exact d.exists_statement_of_initializerLength hn
  · rw [hfeature, hend, decide_eq_true_iff, Nat.pos_iff_ne_zero, ne_eq,
      initializerLength_eq_zero_iff, take_firstMemberIndex]
    simp
  · -- Among the codes only one is written SS0001, so both ways to pick the reports agree.
    have hcode : (fun x : Diagnostic => x.code.text == "SS0001") = Diagnostic.isMisplaced := by
      funext x
      unfold Diagnostic.isMisplaced
      cases x.code <;> decide
    rw [hcode, hlints, d.filter_isMisplaced_initializerLints, map_misplacedLint]

end Declaration

/-! ### Where the items go -/

namespace Context

/-- A statement that desugaring makes from the header or from an initializer that moves. -/
def IsMade (c : Context) (s : Statement) : Prop :=
  (∃ target value, s = .assign target value) ∨ s ∈ c.movedAssignments

/-- Where the loose items of a declaration are found once it has become `d'`, which has `added` new
members in front: the statements `received` are in the constructors through which instances are made,
and the rest is in the body. -/
structure Delivers (c : Context) (d' : Declaration) (received : List Statement) (added : Nat) :
    Prop where
  /-- There is one statement for each item of the initializer. -/
  items : received.map some =
    (c.declaration.body.take c.recognition.initializerEnd).map initializerStatement?
  /-- If instances are made through a new constructor, then it is there and has the statements behind
  its checks. What follows is made, not taken from the body. -/
  new : .constructor ∈ c.constructionTargets → received ≠ [] →
    ∃ k checks made, 0 < added ∧ d'.body[added - 1]? = some (.member (.constructor k)) ∧
      k.body.stmts = checks ++ received ++ made ∧
      (∀ s ∈ checks, c.IsCheck s) ∧ ∀ s ∈ made, c.IsMade s
  /-- All others through which instances are made are constructors of the source. -/
  targets : ∀ i, .member i ∈ c.constructionTargets →
    ∃ k, c.declaration.body[i]? = some (.member (.constructor k))
  /-- A constructor of the source has the statements between its checks and its own statements if
  instances are made through it, and nothing there otherwise. -/
  explicit : ∀ i k, c.declaration.body[i]? = some (.member (.constructor k)) →
    ∃ k' checks, c.recognition.initializerEnd ≤ i ∧
      d'.body[added + (i - c.recognition.initializerEnd)]? = some (.member (.constructor k')) ∧
      k'.body.stmts = checks ++
        (if .member i ∈ c.constructionTargets then received else []) ++ k.body.stmts ∧
      ∀ s ∈ checks, c.IsCheck s
  /-- Of the loose items the initializer is gone from the body, and all others are in it, in their
  order. -/
  kept : d'.body.filter (fun item => !item.isMember) =
    (c.declaration.body.drop c.recognition.initializerEnd).filter fun item => !item.isMember

theorem filter_map_member (ms : List Member) :
    (ms.map BodyItem.member).filter (fun item => !item.isMember) = [] := by
  rw [List.filter_eq_nil_iff]
  intro item hitem
  obtain ⟨m, -, rfl⟩ := List.mem_map.mp hitem
  exact Bool.false_ne_true

theorem filter_map_itemBecomes (c : Context) (items : List BodyItem) :
    (items.map c.itemBecomes).filter (fun item => !item.isMember) =
      items.filter fun item => !item.isMember := by
  induction items with
  | nil => rfl
  | cons item rest ih =>
    cases item with
    | member m => exact ih
    | statement code => exact congrArg (BodyItem.statement code :: ·) ih
    | comment text => exact congrArg (BodyItem.comment text :: ·) ih

/-- What stands in the new constructor, seen from the unnamed initializer. -/
theorem exists_stmts_impliedConstructor (c : Context) :
    ∃ checks made, c.impliedConstructor.body.stmts = checks ++ c.initializerStatements ++ made ∧
      (∀ s ∈ checks, c.IsCheck s) ∧ ∀ s ∈ made, c.IsMade s := by
  refine ⟨c.singletonChecks ++ c.assertionChecks c.namedParams,
    (c.namedParams.filter fun x => c.isShorthand x.1).map (fun x => .assign x.1.name x.2) ++
      c.movedAssignments ++
      (c.namedParams.filter fun x => c.isCaptured x.1).map
        (fun x => .assign ("this." ++ x.1.name) x.2), ?_, ?_, ?_⟩
  · show _ ++ _ ++ _ ++ _ ++ _ ++ _ = _
    simp only [List.append_assoc]
  · intro s hs
    rcases List.mem_append.mp hs with hs | hs
    · exact isCheck_of_mem_singletonChecks hs
    · exact isCheck_of_mem_assertionChecks hs
  · intro s hs
    rcases List.mem_append.mp hs with hs | hs
    · rcases List.mem_append.mp hs with hs | hs
      · obtain ⟨x, -, rfl⟩ := List.mem_map.mp hs
        exact .inl ⟨_, _, rfl⟩
      · exact .inr hs
    · obtain ⟨x, -, rfl⟩ := List.mem_map.mp hs
      exact .inl ⟨_, _, rfl⟩

section Lowered

variable {o : Options} {importsSystem : Bool} {d : Declaration} {c : Context}
  (hc : Context.of o importsSystem d = c)
include hc

/-- The loose items of a lowered declaration are those behind the initializer. -/
theorem filter_body_lowered :
    (d.lowered o importsSystem).body.filter (fun item => !item.isMember) =
      (d.body.drop c.recognition.initializerEnd).filter fun item => !item.isMember := by
  have haccessor : (if c.recognition.features.singletonMarker then
      [BodyItem.member (.property c.accessor)] else []).filter (fun item => !item.isMember) = [] := by
    split <;> rfl
  rw [body_lowered_eq hc, List.filter_append, List.filter_append, filter_map_member,
    filter_map_itemBecomes, haccessor, List.nil_append, List.append_nil]

/-- **An item is found again behind the new members**, as many places further to the front as items
are gone. -/
theorem getElem?_body_lowered {i : Nat} {item : BodyItem} (h : d.body[i]? = some item)
    (hend : c.recognition.initializerEnd ≤ i) :
    (d.lowered o importsSystem).body[(c.fullPlan.added c).length +
      (i - c.recognition.initializerEnd)]? = some (c.itemBecomes item) := by
  have hget : (d.body.drop c.recognition.initializerEnd)[i - c.recognition.initializerEnd]? =
      some item := by
    rw [List.getElem?_drop, Nat.add_sub_cancel' hend]
    exact h
  have hlength : i - c.recognition.initializerEnd <
      ((d.body.drop c.recognition.initializerEnd).map c.itemBecomes).length := by
    rw [List.length_map]
    exact (List.getElem?_eq_some_iff.mp hget).1
  rw [body_lowered_eq hc, List.append_assoc, List.getElem?_append_right (by simp),
    List.length_map, Nat.add_sub_cancel_left, List.getElem?_append_left hlength,
    List.getElem?_map, hget]
  rfl

/-- A member stands behind the initializer. -/
theorem initializerEnd_le_of_member {i : Nat} {m : Member}
    (h : d.body[i]? = some (.member m)) : c.recognition.initializerEnd ≤ i := by
  by_contra hlt
  have hend : c.recognition.initializerEnd = c.fullPlan.consumed := by
    subst hc
    exact (consumed_fullPlan o importsSystem d).symm
  have hmem : .member m ∈ d.body.take c.fullPlan.consumed := by
    rw [← hend]
    apply List.mem_of_getElem? (i := i)
    rw [List.getElem?_take_of_lt (by omega)]
    exact h
  rw [← hc] at hmem
  cases isMember_of_mem_take_consumed o importsSystem d hmem

/-- The new constructor is the last of the new members. -/
theorem getLast?_added (h : d.getsConstructor o = true) :
    (c.fullPlan.added c).getLast? = some (.constructor c.impliedConstructor) := by
  unfold Plan.added
  rw [addsConstructor_fullPlan hc, h, if_pos rfl, newConstructor_fullPlan hc h,
    List.getLast?_concat]

theorem getElem?_impliedConstructor (h : d.getsConstructor o = true) :
    0 < (c.fullPlan.added c).length ∧
      (d.lowered o importsSystem).body[(c.fullPlan.added c).length - 1]? =
        some (.member (.constructor c.impliedConstructor)) := by
  have hlast := getLast?_added hc h
  have hpos : 0 < (c.fullPlan.added c).length := by
    rw [List.length_pos_iff]
    intro hnil
    rw [hnil] at hlast
    cases hlast
  refine ⟨hpos, ?_⟩
  rw [body_lowered_eq hc, List.append_assoc,
    List.getElem?_append_left (by rw [List.length_map]; omega), List.getElem?_map,
    ← List.getLast?_eq_getElem?, hlast]
  rfl

/-- There is a new constructor if one is needed and there is something for it to take. -/
theorem getsConstructor_of_target (htarget : .constructor ∈ c.constructionTargets)
    (hne : c.initializerStatements ≠ []) : d.getsConstructor o = true := by
  have hsome : (o.extensions.unnamedInitializer && decide (0 < d.initializerLength)) = true := by
    rw [ne_eq, initializerStatements_eq_nil_iff hc, Bool.not_eq_false] at hne
    exact hne
  rw [constructor_mem_iff hc, Bool.or_eq_true] at htarget
  unfold Declaration.getsConstructor
  rcases htarget with hprimary | hroots
  · rw [hprimary, Bool.true_or]
  · rw [hroots, hsome, Bool.or_true, Bool.and_true, Bool.or_true]

/-- What stands in a constructor of the source, seen from the unnamed initializer. -/
theorem exists_explicitOpening_eq {i : Nat} {k : Constructor}
    (h : d.body[i]? = some (.member (.constructor k))) :
    ∃ checks, c.explicitOpening k = checks ++
        (if .member i ∈ c.constructionTargets then c.initializerStatements else []) ∧
      ∀ s ∈ checks, c.IsCheck s := by
  have hget : c.declaration.body[i]? = some (.member (.constructor k)) := hc ▸ h
  refine ⟨(if c.declaration.isTarget k then c.singletonChecks else []) ++
    c.assertionChecks (k.params.map fun p => (p, p.name)), ?_, ?_⟩
  · unfold explicitOpening
    simp only [member_mem_constructionTargets hget]
  · intro s hs
    rcases List.mem_append.mp hs with hs | hs
    · split at hs
      · exact isCheck_of_mem_singletonChecks hs
      · cases hs
    · exact isCheck_of_mem_assertionChecks hs

/-- A target in the body is a constructor. -/
theorem exists_constructor_of_target {i : Nat} (h : .member i ∈ c.constructionTargets) :
    ∃ k, d.body[i]? = some (.member (.constructor k)) := by
  have hdeclaration : c.declaration = d := hc ▸ rfl
  cases hprimary : c.declaration.hasPrimaryConstructor with
  | true =>
    rw [constructionTargets_of_primary hprimary] at h
    simp at h
  | false =>
    by_cases hroots : c.declaration.roots = []
    · rw [constructionTargets_of_roots_eq_nil hroots] at h
      simp at h
    · rw [constructionTargets_of_roots hprimary hroots, List.mem_map] at h
      obtain ⟨⟨j, k⟩, hroot, heq⟩ := h
      obtain rfl : j = i := Target.member.inj heq
      rw [hdeclaration] at hroot
      exact ⟨k, (Declaration.mem_roots.mp hroot).1⟩

/-- **The unnamed initializer is delivered**, and nothing else moves. -/
theorem delivers_lowered :
    c.Delivers (d.lowered o importsSystem) c.initializerStatements
      (c.fullPlan.added c).length := by
  have hdeclaration : c.declaration = d := hc ▸ rfl
  have hend : c.recognition.initializerEnd =
      if o.extensions.unnamedInitializer then d.initializerLength else 0 := hc ▸ rfl
  refine ⟨?_, ?_, ?_, ?_, ?_⟩
  · rw [hdeclaration, hend]
    exact map_some_initializerStatements hc
  · intro htarget hne
    have hgets := getsConstructor_of_target hc htarget hne
    obtain ⟨hpos, hget⟩ := getElem?_impliedConstructor hc hgets
    obtain ⟨checks, made, hstmts, hchecks, hmade⟩ := c.exists_stmts_impliedConstructor
    exact ⟨_, checks, made, hpos, hget, hstmts, hchecks, hmade⟩
  · rw [hdeclaration]
    intro i htarget
    exact exists_constructor_of_target hc htarget
  · rw [hdeclaration]
    intro i k hk
    have hle := initializerEnd_le_of_member hc hk
    obtain ⟨checks, hopening, hchecks⟩ := exists_explicitOpening_eq hc hk
    refine ⟨_, checks, hle, getElem?_body_lowered hc hk hle, ?_, hchecks⟩
    show c.explicitOpening k ++ k.body.stmts = _
    rw [hopening]
  · rw [hdeclaration]
    exact filter_body_lowered hc

end Lowered

end Context

/-- **Every loose statement is classified once.** Let a declaration be recognized while unnamed
initializers are understood.

* The initializer ends before the first member and with a statement; no member stands in it, no
  statement stands between it and the first member, and it is recognized exactly if some statement
  stands before the first member. Each statement from the first member on is reported once, at its own
  place and in order.
* The declaration is desugared. Each constructor through which instances are made gets exactly the
  items of the initializer, in order; they are gone from the body, and every other statement and
  comment is still there, in order. -/
theorem loose_statements_classified {o : Options} {d : Declaration} {r : Recognition}
    (importsSystem : Bool) (hon : o.extensions.unnamedInitializer = true)
    (h : d.recognize o = .ok r) :
    d.Classified r ∧
    ∃ d' received added, (d.desugarWith o importsSystem Feature.all).result = .baseline d' ∧
      Context.Delivers ⟨d, r, o, importsSystem⟩ d' received added := by
  unfold Declaration.recognize at h
  cases hfault : d.fault? o with
  | some refusal => rw [hfault] at h; cases h
  | none =>
    rw [hfault] at h
    cases h
    have hresult : (d.desugarWith o importsSystem Feature.all).result =
        .baseline (d.lowered o importsSystem) := by
      rw [Declaration.desugarWith_all, hfault]
    exact ⟨d.classified_recognition hon, _, _, _, hresult, Context.delivers_lowered rfl⟩

/-- `class Queue` with a comment and a statement at the start, a comment before the first member, two
statements behind it, and two constructors of which one calls the other. -/
def primedQueue : Declaration where
  attributes := []
  modifiers := []
  kind := .plain
  singleton := false
  name := "Queue"
  typeParams := none
  params := none
  constructorAccess := none
  bases := []
  constraints := []
  source := .made ""
  span := .nowhere
  body := [
    .comment (.made "// warm up"),
    .statement (.made "Start();"),
    .comment (.made "// the members"),
    .member (.field ⟨[], [], ⟨"int"⟩, "length", none, .nowhere⟩),
    .statement ⟨"Stop();", ⟨74, 81⟩, 2, ["Stop"]⟩,
    .member (.constructor ⟨[], ["public"], "Queue", [⟨[], [], ⟨"int"⟩, "n", none, none, .nowhere⟩],
      none, ⟨[.source (.made "length = n;")]⟩, .nowhere⟩),
    .statement ⟨"Close();", ⟨122, 130⟩, 2, ["Close"]⟩,
    .member (.constructor ⟨[], ["public"], "Queue", [], some "this(0)", ⟨[]⟩, .nowhere⟩)]

theorem loose_statements_classified_primedQueue :
    ∃ r, primedQueue.recognize {} = .ok r ∧ r.initializerEnd = 2 ∧
      r.diagnostics.map Diagnostic.span = [⟨74, 81⟩, ⟨122, 130⟩] ∧
      Context.constructionTargets ⟨primedQueue, r, {}, false⟩ = [.member 5] ∧
      primedQueue.Classified r ∧
      ∃ d' received added, (primedQueue.desugarWith {} false Feature.all).result = .baseline d' ∧
        Context.Delivers ⟨primedQueue, r, {}, false⟩ d' received added := by
  have h : primedQueue.recognize {} = .ok (primedQueue.recognition {}) := rfl
  exact ⟨_, h, by decide +kernel, by decide +kernel, by decide +kernel,
    loose_statements_classified false rfl h⟩

end ClassSugar
