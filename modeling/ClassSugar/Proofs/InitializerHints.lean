import ClassSugar.Proofs.ParameterNames

/-!
# What the hints of an initializer say

A loose statement of the initializer runs before the properties that parameters declare are assigned.
If it reads one of them, a hint says so and names the parameter to read instead. The hint works out
that name by itself, as the property's name in camel case. The constructor's names come from a search,
which goes on as long as a name is taken (`Context.namesBefore`). The two agree exactly if the search
ends at once.

* `Context.Warns` says which statement and which parameter a hint is about.
* `hint_names_parameter_iff` says when a hint names the right parameter: no other parameter of the
  constructor has the name, and neither has a property whose turn had not come.
-/

namespace ClassSugar

open Identifier

/-! ### Names before a turn and in the end -/

/-- The search ends at once if the name is free. -/
theorem Turns.eq_zero_iff {taken : List String} {name : String} {k : Nat} (h : Turns taken name k) :
    k = 0 ↔ name ∉ taken := by
  constructor
  · rintro rfl
    exact h.free
  · intro hfree
    by_contra hk
    exact hfree (h.passed 0 (Nat.pos_of_ne_zero hk))

namespace Context

section Names

variable {o : Options} {importsSystem : Bool} {d : Declaration} {c : Context}
  (hc : Context.of o importsSystem d = c)
include hc

/-- The turns from position `i` on lead from the names before them to the names in the constructor. -/
theorem foldl_namesBefore (i : Nat) :
    (c.recognition.shorthand.filter (i ≤ ·)).foldl d.nameParameter (c.namesBefore i) =
      c.paramNames := by
  have hsplit : ∀ positions : List Nat, positions.Pairwise (· < ·) →
      positions.filter (· < i) ++ positions.filter (i ≤ ·) = positions := by
    intro positions horder
    induction positions with
    | nil => rfl
    | cons j rest ih =>
      obtain ⟨hlater, horder⟩ := List.pairwise_cons.mp horder
      by_cases hj : j < i
      · have hnot : ¬i ≤ j := Nat.not_le.mpr hj
        simp [hj, hnot, ih horder]
      · have hge : i ≤ j := Nat.le_of_not_lt hj
        have hnone : rest.filter (· < i) = [] :=
          List.filter_eq_nil_iff.mpr fun l hl => by
            have := hlater l hl
            simpa using by omega
        have hrest := ih horder
        rw [hnone, List.nil_append] at hrest
        simp [hj, hge, hnone, hrest]
  have hdeclaration : c.declaration = d := hc ▸ rfl
  have hall := hsplit _ (pairwise_shorthand hc)
  unfold namesBefore paramNames Declaration.constructorParamNames
  rw [hdeclaration, ← List.foldl_append, hall]

/-- A name stays as it is if its turn is over or never comes. -/
theorem getElem?_namesBefore_of_settled {i j : Nat} (h : j < i ∨ j ∉ c.recognition.shorthand) :
    (c.namesBefore i)[j]? = c.paramNames[j]? := by
  have hnot : j ∉ c.recognition.shorthand.filter (i ≤ ·) := by
    intro hmem
    obtain ⟨hmem, hle⟩ := List.mem_filter.mp hmem
    rcases h with hlt | hout
    · exact absurd (of_decide_eq_true hle) (Nat.not_le.mpr hlt)
    · exact hout hmem
  rw [← foldl_namesBefore hc i, d.getElem?_foldl_of_notMem hnot]

/-- **When the search ends at once.** The name in camel case is free at a parameter's turn exactly if
no other parameter of the constructor has it, and no property from there on. -/
theorem camelCase_notMem_namesBefore_iff {i : Nat} {p : Parameter}
    (hp : d.primaryParams[i]? = some p) (hi : i ∈ c.recognition.shorthand) :
    camelCase p.name ∉ c.namesBefore i ↔
      (∀ j, j ≠ i → c.paramNames[j]? ≠ some (camelCase p.name)) ∧
        ∀ j q, i ≤ j → j ∈ c.recognition.shorthand → d.primaryParams[j]? = some q →
          q.name ≠ camelCase p.name := by
  have hshorthand := (mem_shorthand_iff hc hp).mp hi
  constructor
  · intro hfree
    refine ⟨fun j hj hname => ?_, fun j q hij _ hq hname => ?_⟩
    · by_cases hsettled : j < i ∨ j ∉ c.recognition.shorthand
      · rw [← getElem?_namesBefore_of_settled hc hsettled] at hname
        exact hfree (List.mem_of_getElem? hname)
      · -- The parameter at `i` has the name already when it is the turn of `j`.
        rw [not_or, not_not] at hsettled
        obtain ⟨q, hq⟩ : ∃ q, d.primaryParams[j]? = some q := by
          have hlength : c.paramNames.length = d.primaryParams.length :=
            hc ▸ d.length_constructorParamNames _
          have hlt := (List.getElem?_eq_some_iff.mp hname).1
          exact ⟨_, List.getElem?_eq_getElem (hlength ▸ hlt)⟩
        obtain ⟨k, hturns, hfound⟩ := exists_turns_paramNames hc hp hshorthand
        obtain ⟨l, hturns', hfound'⟩ :=
          exists_turns_paramNames hc hq ((mem_shorthand_iff hc hq).mp hsettled.2)
        obtain rfl := hturns.eq_zero_iff.mpr hfree
        refine hturns'.free ?_
        rw [← Option.some.inj (hname.symm.trans hfound')]
        refine List.mem_of_getElem? (i := i) ?_
        rw [getElem?_namesBefore_of_settled hc (.inl (by omega)), hfound]
        rfl
    · exact hfree (hname ▸ name_mem_namesBefore hc hq hij)
  · rintro ⟨hothers, hproperties⟩ hmem
    obtain ⟨j, hj⟩ := List.getElem?_of_mem hmem
    by_cases hsettled : j < i ∨ j ∉ c.recognition.shorthand
    · refine hothers j ?_ ((getElem?_namesBefore_of_settled hc hsettled).symm.trans hj)
      rintro rfl
      exact hsettled.elim (Nat.lt_irrefl j) fun hout => hout hi
    · rw [not_or, not_not] at hsettled
      have hlt : j < d.primaryParams.length := by
        have hlength : (c.namesBefore i).length = d.primaryParams.length :=
          hc ▸ d.length_constructorParamNames _
        rw [← hlength]
        exact (List.getElem?_eq_some_iff.mp hj).1
      have hq : d.primaryParams[j]? = some d.primaryParams[j] := List.getElem?_eq_getElem hlt
      have hnot : j ∉ c.recognition.shorthand.filter (· < i) := fun hmem =>
        hsettled.1 (of_decide_eq_true (List.mem_filter.mp hmem).2)
      have hdeclaration : c.declaration = d := hc ▸ rfl
      rw [namesBefore, hdeclaration, d.getElem?_constructorParamNames_of_notMem hq hnot] at hj
      exact hproperties j _ (Nat.le_of_not_lt hsettled.1) hsettled.2 hq (Option.some.inj hj)

end Names

/-! ### Hints -/

/-- The hint that `code` reads the property which the parameter `p` at position `i` declares: `code` is
a statement of the initializer and mentions the property. -/
structure Warns (c : Context) (hint : Diagnostic) (i : Nat) (p : Parameter) : Prop where
  param : c.declaration.primaryParams[i]? = some p
  shorthand : i ∈ c.recognition.shorthand
  raised : ∃ code, .statement code ∈ c.declaration.body.take c.recognition.initializerEnd ∧
    code.mentions p.name = true ∧ hint = c.declaration.readsPropertyLint code p.name

end Context

/-- The text of a hint: which property is read too early, and which parameter to read instead. -/
def Declaration.advice (property parameter : String) : String :=
  "initializer reads `" ++ property ++ "` before the property is assigned; " ++
    ("use `" ++ parameter ++ "` to read the parameter")

namespace Declaration

theorem message_readsPropertyLint (d : Declaration) (code : Verbatim) (property : String) :
    (d.readsPropertyLint code property).message = advice property (camelCase property) :=
  rfl

theorem advice_injective (property : String) : Function.Injective (advice property) := by
  intro a b h
  have hlist := congrArg String.toList h
  unfold advice at hlist
  simpa only [String.toList_append, List.append_cancel_left_eq, List.append_cancel_right_eq,
    String.toList_inj] using hlist

theorem mem_looseStatements {items : List BodyItem} {code : Verbatim} :
    code ∈ looseStatements items ↔ .statement code ∈ items := by
  unfold looseStatements
  rw [List.mem_filterMap]
  constructor
  · rintro ⟨item, hitem, hcode⟩
    cases item with
    | statement other =>
      cases hcode
      exact hitem
    | member m => cases hcode
    | comment text => cases hcode
  · exact fun hitem => ⟨_, hitem, rfl⟩

/-- **The hints of a declaration** are those that a statement and a parameter call for. -/
theorem mem_diagnostics_recognition_iff (d : Declaration) (o : Options) (importsSystem : Bool)
    (hint : Diagnostic) :
    hint ∈ (d.recognition o).diagnostics ∧ hint.code = .initializerReadsProperty ↔
      ∃ i p, (Context.of o importsSystem d).Warns hint i p := by
  have hoff : o.extensions.unnamedInitializer = false → (d.recognition o).diagnostics = [] ∧
      (d.recognition o).initializerEnd = 0 := by
    intro hoff
    unfold recognition
    simp only [hoff, Bool.false_eq_true, if_false, and_self]
  have hon : o.extensions.unnamedInitializer = true → (d.recognition o).diagnostics =
      d.initializerLints (d.recognition o).shorthand (d.recognition o).initializerEnd :=
    fun hon => if_pos hon
  constructor
  · rintro ⟨hmem, hcode⟩
    cases hswitch : o.extensions.unnamedInitializer with
    | false =>
      rw [(hoff hswitch).1] at hmem
      cases hmem
    | true =>
      rw [hon hswitch] at hmem
      -- A lint is about a statement that reads a property, or about one that is misplaced.
      rcases List.mem_append.mp hmem with hreads | hmisplaced
      · obtain ⟨code, hstatement, hmem⟩ := List.mem_flatMap.mp hreads
        obtain ⟨name, hname, rfl⟩ := List.mem_map.mp hmem
        obtain ⟨hproperty, hmentions⟩ := List.mem_filter.mp hname
        obtain ⟨p, hp, rfl⟩ := List.mem_map.mp hproperty
        obtain ⟨i, hi, hparam⟩ := List.mem_filterMap.mp hp
        exact ⟨i, p, hparam, hi, code, mem_looseStatements.mp hstatement, hmentions, rfl⟩
      · obtain ⟨code, -, rfl⟩ := List.mem_map.mp hmisplaced
        cases hcode
  · rintro ⟨i, p, hparam, hshorthand, code, hstatement, hmentions, rfl⟩
    refine ⟨?_, rfl⟩
    cases hswitch : o.extensions.unnamedInitializer with
    | false =>
      -- Without the extension there is no initializer that a statement could stand in.
      have hnone : (Context.of o importsSystem d).recognition.initializerEnd = 0 :=
        (hoff hswitch).2
      rw [hnone] at hstatement
      cases hstatement
    | true =>
      rw [hon hswitch]
      refine List.mem_append_left _ (List.mem_flatMap.mpr ⟨code, mem_looseStatements.mpr hstatement,
        List.mem_map.mpr ⟨p.name, List.mem_filter.mpr ⟨List.mem_map.mpr ⟨p, ?_, rfl⟩, hmentions⟩,
          rfl⟩⟩)
      exact List.mem_filterMap.mpr ⟨i, hshorthand, hparam⟩

end Declaration

/-- **When a hint names the right parameter.** The hints of a declaration that is recognized are about
the statements of its initializer that mention a property which a parameter declares. A hint names
this parameter as the constructor spells it exactly if no other parameter of the constructor has the
property's name in camel case, and no property has it that is declared by this parameter or a later
one. -/
theorem hint_names_parameter_iff {o : Options} {d : Declaration} {r : Recognition}
    (hr : d.recognize o = .ok r) (importsSystem : Bool) :
    let c : Context := ⟨d, r, o, importsSystem⟩
    (∀ hint, hint ∈ r.diagnostics ∧ hint.code = .initializerReadsProperty ↔
      ∃ i p, c.Warns hint i p) ∧
    ∀ hint i p, c.Warns hint i p →
      ((∃ name, c.paramNames[i]? = some name ∧ hint.message = Declaration.advice p.name name) ↔
        (∀ j, j ≠ i → c.paramNames[j]? ≠ some (camelCase p.name)) ∧
          ∀ j q, i ≤ j → j ∈ r.shorthand → d.primaryParams[j]? = some q →
            q.name ≠ camelCase p.name) := by
  obtain rfl := Declaration.recognition_of_recognize hr
  intro c
  have hc : Context.of o importsSystem d = c := rfl
  refine ⟨d.mem_diagnostics_recognition_iff o importsSystem, ?_⟩
  rintro hint i p ⟨hparam, hshorthand, code, -, -, rfl⟩
  obtain ⟨k, hturns, hname⟩ := Context.exists_turns_paramNames hc hparam
    ((Context.mem_shorthand_iff hc hparam).mp hshorthand)
  rw [← Context.camelCase_notMem_namesBefore_iff hc hparam hshorthand, ← hturns.eq_zero_iff,
    Declaration.message_readsPropertyLint]
  constructor
  · rintro ⟨name, hget, hmessage⟩
    obtain rfl := Option.some.inj (hname.symm.trans hget)
    exact (parameterCandidate_injective _ 0 k (Declaration.advice_injective p.name hmessage)).symm
  · rintro rfl
    exact ⟨_, hname, rfl⟩

/-- `class Person(string Name, string name) { Use(Name); }`: the parameter behind the property gets a
longer name, since the other parameter has its name in camel case. -/
def doubleName : Declaration where
  attributes := []
  modifiers := []
  kind := .plain
  singleton := false
  name := "Person"
  typeParams := none
  params := some [
    ⟨[], [], ⟨"string"⟩, "Name", none, none, .nowhere⟩,
    ⟨[], [], ⟨"string"⟩, "name", none, none, .nowhere⟩]
  constructorAccess := none
  bases := []
  constraints := []
  source := .made ""
  span := .nowhere
  body := [.statement ⟨"Use(Name);", .nowhere, 4, ["Use", "Name"]⟩]

/-- The hint names the other parameter. -/
theorem hint_names_parameter_iff_doubleName :
    ∃ r hint, doubleName.recognize {} = .ok r ∧ hint ∈ r.diagnostics ∧
      hint.code = .initializerReadsProperty ∧ hint.message = Declaration.advice "Name" "name" ∧
      Context.paramNames ⟨doubleName, r, {}, true⟩ = ["nameValue", "name"] ∧
      ¬∃ name, (Context.paramNames ⟨doubleName, r, {}, true⟩)[0]? = some name ∧
        hint.message = Declaration.advice "Name" name := by
  have hr : doubleName.recognize {} = .ok (doubleName.recognition {}) := rfl
  have hnames : Context.paramNames ⟨doubleName, doubleName.recognition {}, {}, true⟩ =
      ["nameValue", "name"] := by decide +kernel
  have hcamel : camelCase "Name" = "name" := by decide +kernel
  obtain ⟨hhints, hright⟩ := hint_names_parameter_iff hr true
  have hwarns : Context.Warns ⟨doubleName, doubleName.recognition {}, {}, true⟩
      (doubleName.readsPropertyLint ⟨"Use(Name);", .nowhere, 4, ["Use", "Name"]⟩ "Name") 0
      ⟨[], [], ⟨"string"⟩, "Name", none, none, .nowhere⟩ :=
    ⟨rfl, by decide +kernel, _, .head _, by decide +kernel, rfl⟩
  obtain ⟨hmem, hcode⟩ := (hhints _).mpr ⟨_, _, hwarns⟩
  refine ⟨_, _, hr, hmem, hcode, ?_, hnames, fun hsuggested => ?_⟩
  · rw [Declaration.message_readsPropertyLint, hcamel]
  · have hothers := ((hright _ _ _ hwarns).mp hsuggested).1 1 (by decide)
    rw [hnames, hcamel] at hothers
    exact hothers rfl

end ClassSugar
