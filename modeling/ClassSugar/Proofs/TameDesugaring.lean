import ClassSugar.Proofs.MemberFrame
import ClassSugar.Proofs.ParameterNames
import ClassSugar.Proofs.SingletonForm
import ClassSugar.Proofs.TameTree

/-!
# Desugaring keeps trees tame

What desugaring writes anew is made of words of the source and of words of its own, so it has no
carriage returns; the names that it makes up have none, as lowering a letter gives none. Code that
moves stays the same code, but for the name in front of an initializer that becomes an assignment.
So a lowered declaration is tame if the declaration was (`Declaration.tame_lowered`), one that is
refused leaves its source, and a whole file stays tame (`Item.tame_desugarAll`).
-/

namespace ClassSugar

open ClassSugar.Text

/-! ### Names -/

theorem Identifier.clean_camelCase {name : String} (h : Clean name) :
    Clean (Identifier.camelCase name) := by
  have hbare : '\r' ∉ Identifier.bareChars name :=
    fun hmem => h ((List.dropWhile_suffix _).subset hmem)
  have hlowered : Clean (String.ofList (Identifier.lowerFirst (Identifier.bareChars name))) := by
    rw [Clean, String.toList_ofList]
    cases hchars : Identifier.bareChars name with
    | nil => exact List.not_mem_nil
    | cons c r =>
      rw [hchars, List.mem_cons, not_or] at hbare
      exact List.not_mem_append (Text.notMem_toLower (by decide) hbare.1) hbare.2
  dsimp only [Identifier.camelCase]
  split
  · exact clean_append.mpr ⟨by decide, hlowered⟩
  · exact hlowered

theorem clean_parameterCandidate {name : String} (h : Clean name) (n : Nat) :
    Clean (parameterCandidate name n) := by
  induction n with
  | zero => exact h
  | succ n ih => exact clean_append.mpr ⟨ih, by decide⟩

theorem Declaration.clean_holderName (d : Declaration) : Clean d.holderName := by
  obtain ⟨n, hname, -⟩ := d.holderName_spec
  rw [hname]
  cases n with
  | zero => decide
  | succ n =>
    refine clean_append.mpr ⟨by decide, fun hmem => ?_⟩
    rw [Nat.toString_eq_ofList_toDigits, String.toList_ofList] at hmem
    exact absurd (Nat.isDigit_of_mem_toDigits (by decide) (by decide) hmem) (by decide)

/-- A word has no blank in it. -/
theorem Text.clean_of_mem_words {s w : String} (h : w ∈ words s) : Clean w := by
  have hall : ∀ (cs word : List Char), '\r' ∉ word → ∀ w ∈ wordsAux word cs, Clean w := by
    intro cs
    induction cs with
    | nil =>
      intro word hword w hw
      unfold wordsAux at hw
      split at hw
      · cases hw
      · rw [List.mem_singleton.mp hw, Clean, String.toList_ofList, List.mem_reverse]
        exact hword
    | cons c r ih =>
      intro word hword w hw
      unfold wordsAux at hw
      split at hw
      · split at hw
        · exact ih [] List.not_mem_nil w hw
        · rcases List.mem_cons.mp hw with rfl | hw
          · rw [Clean, String.toList_ofList, List.mem_reverse]
            exact hword
          · exact ih [] List.not_mem_nil w hw
      · next hblank =>
        refine ih (c :: word) (List.not_mem_cons_of_ne_of_not_mem ?_ hword) w hw
        rintro rfl
        exact hblank (by decide)
  exact hall s.toList [] List.not_mem_nil w h

namespace Context

variable {c : Context} (hd : c.declaration.Tame)

section Made

include hd

theorem clean_paramNames : ∀ name ∈ c.paramNames, Clean name := by
  have hparams : ∀ p ∈ c.declaration.primaryParams, Clean p.name :=
    fun p hp => (hd.params p hp).name
  -- Each step sets one of the names, to a candidate made of a parameter's own name.
  have hstep : ∀ (names : List String) (i : Nat), (∀ name ∈ names, Clean name) →
      ∀ name ∈ c.declaration.nameParameter names i, Clean name := by
    intro names i hnames name hname
    unfold Declaration.nameParameter at hname
    split at hname
    · next p hp =>
      rcases List.mem_or_eq_of_mem_set hname with hname | rfl
      · exact hnames name hname
      · obtain ⟨m, -, hfree⟩ := exists_turns names (Identifier.camelCase p.name)
        rw [hfree]
        exact clean_parameterCandidate
          (Identifier.clean_camelCase (hparams p (List.mem_of_getElem? hp))) m
    · exact hnames name hname
  have hfold : ∀ (shorthand : List Nat) (names : List String), (∀ name ∈ names, Clean name) →
      ∀ name ∈ shorthand.foldl c.declaration.nameParameter names, Clean name := by
    intro shorthand
    induction shorthand with
    | nil => exact fun names hnames => hnames
    | cons i rest ih => exact fun names hnames => ih _ (hstep names i hnames)
  exact hfold _ _ (List.forall_mem_map.mpr hparams)

theorem paired_selfType : Paired c.declaration.selfType.toList := by
  refine hd.name.paired.toList_append ?_
  cases htypes : c.declaration.typeParams with
  | none => exact .nil
  | some types => exact hd.typeParams types htypes

end Made

theorem clean_system {name : String} (h : Clean name) : Clean (c.system name) := by
  unfold system
  split
  · exact h
  · exact clean_append.mpr ⟨by decide, h⟩

/-! ### Statements -/

theorem tame_nullGuard {name : String} (h : Clean name) : (c.nullGuard name).Tame := by
  have hexception : Clean (c.system "ArgumentNullException") := clean_system (by decide)
  have hnameOf : Clean ("nameof(" ++ name ++ ")") := by
    simp only [clean_append]
    exact ⟨⟨by decide, h⟩, by decide⟩
  unfold nullGuard
  split
  · refine ⟨clean_append.mpr ⟨hexception, by decide⟩, ?_⟩
    exact List.forall_mem_cons.mpr ⟨h, List.forall_mem_singleton.mpr hnameOf⟩
  · exact ⟨clean_append.mpr ⟨h, by decide⟩, hexception, List.forall_mem_singleton.mpr hnameOf⟩

theorem tame_assertionChecks {named : List (Parameter × String)} (h : ∀ x ∈ named, Clean x.2) :
    ∀ s ∈ c.assertionChecks named, s.Tame := by
  unfold assertionChecks
  split
  · exact List.forall_mem_map.mpr fun x hx => tame_nullGuard (h x (List.mem_of_mem_filter hx))
  · nofun

theorem tame_singletonChecks : ∀ s ∈ c.singletonChecks, s.Tame := by
  unfold singletonChecks
  split
  · refine List.forall_mem_singleton.mpr ⟨?_, clean_system (by decide), ?_⟩
    · exact clean_append.mpr ⟨c.declaration.clean_holderName, by decide⟩
    · exact List.forall_mem_singleton.mpr (by decide)
  · nofun

section Moved

include hd

theorem tame_initializerStatements : ∀ s ∈ c.initializerStatements, s.Tame := by
  intro s hs
  obtain ⟨item, hitem, hread⟩ := List.mem_filterMap.mp hs
  have htame := hd.body item (List.mem_of_mem_take hitem)
  cases item with
  | member m => cases hread
  | statement code =>
    cases hread
    exact htame
  | comment text =>
    cases hread
    exact htame

/-- An assignment has the name of its member before the initializer, on the same line. -/
theorem tame_movedAssignments : ∀ s ∈ c.movedAssignments, s.Tame := by
  rw [movedAssignments_eq_map]
  refine List.forall_mem_map.mpr ?_
  rintro ⟨name, value⟩ hmoved
  obtain ⟨item, hitem, hread⟩ := List.mem_filterMap.mp hmoved
  obtain ⟨m, hm, hinitializer⟩ := Option.bind_eq_some_iff.mp (Option.filter_eq_some_iff.mp hread).1
  obtain ⟨hname, hvalue⟩ := of_instanceInitializer? hinitializer
  have htame : m.Tame := by
    cases item with
    | member m' =>
      cases hm
      exact hd.body _ hitem
    | statement _ | comment _ => cases hm
  have hboth : Paired name.toList ∧ value.Tame := by
    cases m with
    | field f | property q =>
      cases hname
      exact ⟨htame.name, htame.initializer value hvalue⟩
    | constructor _ | method _ | type _ | raw _ => cases hvalue
  have htarget : Paired (if c.paramNames.contains name then "this." ++ name else name).toList := by
    split
    · exact Paired.toList_append (.of_notMem (by decide)) hboth.1
    · exact hboth.1
  show Paired (_ ++ " = " ++ value.text ++ ";").toList
  exact ((htarget.toList_append (.of_notMem (by decide))).toList_append hboth.2).toList_append
    (.of_notMem (by decide))

theorem tame_explicitOpening {k : Constructor} (hk : ∀ p ∈ k.params, p.Tame) :
    ∀ s ∈ c.explicitOpening k, s.Tame := by
  have hchecks : ∀ s ∈ c.assertionChecks (k.params.map fun p => (p, p.name)), s.Tame :=
    tame_assertionChecks (List.forall_mem_map.mpr fun p hp => (hk p hp).name)
  unfold explicitOpening
  split
  · exact List.forall_mem_append.mpr
      ⟨List.forall_mem_append.mpr ⟨tame_singletonChecks, hchecks⟩, tame_initializerStatements hd⟩
  · exact List.forall_mem_append.mpr ⟨List.forall_mem_append.mpr ⟨nofun, hchecks⟩, nofun⟩

/-! ### New members -/

theorem tame_holder : c.holder.Tame where
  modifiers := show ∀ w ∈ ["private", "static", "readonly"], Clean w by decide
  name := c.declaration.clean_holderName.paired
  initializer := by
    have htype : Paired c.lazyType.toList :=
      ((((clean_system (by decide)).paired.toList_append (.of_notMem (by decide))).toList_append
        (paired_selfType hd)).toList_append (.of_notMem (by decide)))
    rintro _ ⟨⟩
    exact ((((Paired.toList_append (.of_notMem (by decide)) htype).toList_append
      (.of_notMem (by decide))).toList_append (paired_selfType hd)).toList_append
        (.of_notMem (by decide)))

omit hd in
theorem tame_accessor : c.accessor.Tame where
  modifiers := show ∀ w ∈ ["public", "static"], Clean w by decide
  name := show Paired Declaration.instanceName.toList from .of_notMem (by decide)
  body := (clean_append.mpr ⟨c.declaration.clean_holderName, by decide⟩).paired
  initializer := nofun

omit hd in
theorem tame_captureField {p : Parameter} (hp : p.Tame) : (captureField p).Tame :=
  ⟨show ∀ w ∈ ["private", "readonly"], Clean w by decide, hp.name.paired, nofun⟩

omit hd in
theorem tame_shorthandProperty {p : Parameter} (hp : p.Tame) : (c.shorthandProperty p).Tame := by
  have hsetter : c.setter.Tame := by
    refine ⟨nofun, ?_⟩
    unfold setter
    cases c.declaration.kind <;> decide
  refine ⟨show ∀ w ∈ ["public"], Clean w by decide, hp.name.paired, ?_, nofun⟩
  exact List.forall_mem_cons.mpr ⟨⟨nofun, by decide⟩, List.forall_mem_singleton.mpr hsetter⟩

theorem tame_impliedConstructor : c.impliedConstructor.Tame := by
  have hnamed : ∀ x ∈ c.namedParams, x.1.Tame ∧ Clean x.2 := fun x hx =>
    ⟨hd.params _ (List.of_mem_zip hx).1, clean_paramNames hd _ (List.of_mem_zip hx).2⟩
  refine ⟨fun w hw => Text.clean_of_mem_words hw, hd.name, ?_, ?_⟩
  · exact List.forall_mem_map.mpr fun x hx => ⟨(hnamed x hx).1.modifiers, (hnamed x hx).2⟩
  · simp only [impliedConstructor, List.forall_mem_append, List.forall_mem_map, List.mem_filter]
    refine ⟨⟨⟨⟨⟨tame_singletonChecks, ?_⟩, tame_initializerStatements hd⟩, ?_⟩,
      tame_movedAssignments hd⟩, ?_⟩
    · exact tame_assertionChecks fun x hx => (hnamed x hx).2
    · exact fun x hx => ⟨(hnamed x hx.1).1.name, (hnamed x hx.1).2⟩
    · exact fun x hx => ⟨clean_append.mpr ⟨by decide, (hnamed x hx.1).1.name⟩, (hnamed x hx.1).2⟩

end Moved

/-! ### Members of the source -/

theorem tame_methodBody {m : Method} (h : m.Tame) : (c.methodBody m).Tame := by
  have hbody := h.body
  have hchecks : ∀ s ∈ c.assertionChecks (m.params.map fun p => (p, p.name)), s.Tame :=
    tame_assertionChecks (List.forall_mem_map.mpr fun p hp => (h.params p hp).name)
  unfold methodBody
  split
  · cases hm : m.body with
    | block body =>
      rw [hm] at hbody
      exact List.forall_mem_append.mpr ⟨hchecks, hbody⟩
    | expression value =>
      rw [hm] at hbody
      refine List.forall_mem_append.mpr ⟨hchecks, List.forall_mem_singleton.mpr ?_⟩
      split
      · exact hbody
      · exact hbody
    | absent => trivial
  · exact hbody

/-- A nested type leaves its source, whether it is lowered or not. -/
theorem source_desugarWith {n : Declaration} (h : n.source.Tame) (o : Options)
    (importsSystem : Bool) :
    (n.desugarWith o importsSystem Feature.all).result.toMember.Tame := by
  cases hresult : (n.desugarWith o importsSystem Feature.all).result with
  | baseline n' =>
    obtain ⟨-, rfl, -⟩ := Declaration.baseline_inv hresult
    exact h
  | unchanged source =>
    obtain ⟨-, -, rfl, -⟩ := Declaration.unchanged_inv hresult
    exact h

theorem tame_itemBecomes (hd : c.declaration.Tame) {item : BodyItem} (h : item.Tame) :
    (c.itemBecomes item).Tame := by
  cases item with
  | statement code => exact h
  | comment text => exact h
  | member m =>
    have hparams : ∀ {params : List Parameter}, (∀ p ∈ params, p.Tame) →
        ∀ p ∈ params.map c.unmarked, p.Tame :=
      fun hall => List.forall_mem_map.mpr fun p hp => ⟨(hall p hp).modifiers, (hall p hp).name⟩
    have hkept : ∀ {initializer : Option Verbatim} {moves : Bool}, (∀ v ∈ initializer, v.Tame) →
        ∀ v ∈ (if moves then none else initializer), v.Tame := by
      intro initializer moves hall
      cases moves with
      | true => nofun
      | false => exact hall
    cases m with
    | field f => exact ⟨h.modifiers, h.name, hkept h.initializer⟩
    | property q => exact ⟨h.modifiers, h.name, h.body, hkept h.initializer⟩
    | constructor k =>
      exact ⟨h.modifiers, h.name, hparams h.params,
        List.forall_mem_append.mpr ⟨tame_explicitOpening hd h.params, h.body⟩⟩
    | method m => exact ⟨h.modifiers, hparams h.params, tame_methodBody h⟩
    | type n => exact source_desugarWith h _ _
    | raw code => exact h

end Context

/-! ### Declarations and files -/

section Lowered

variable {o : Options} {importsSystem : Bool}

/-- **A lowered declaration is tame if the declaration was.** -/
theorem Declaration.tame_lowered (d : Declaration) (h : d.Tame) :
    (d.lowered o importsSystem).Tame := by
  obtain ⟨c, hc⟩ : ∃ c, Context.of o importsSystem d = c := ⟨_, rfl⟩
  have hdeclaration : c.declaration = d := hc ▸ rfl
  have hd : c.declaration.Tame := hdeclaration.symm ▸ h
  have hparams : ∀ p ∈ d.primaryParams, p.Tame := h.params
  refine ⟨h.modifiers, h.name, h.typeParams, nofun, h.source, ?_⟩
  rw [Context.body_lowered_eq hc, Context.added_fullPlan hc]
  simp only [List.forall_mem_append, List.forall_mem_map, List.mem_filter]
  refine ⟨⟨⟨⟨⟨?_, ?_⟩, ?_⟩, ?_⟩, ?_⟩, ?_⟩
  · split
    · exact List.forall_mem_singleton.mpr (Context.tame_holder hd)
    · nofun
  · exact fun p hp => Context.tame_captureField (hparams p hp.1)
  · exact fun p hp => Context.tame_shorthandProperty (hparams p hp.1)
  · split
    · exact List.forall_mem_singleton.mpr (Context.tame_impliedConstructor hd)
    · nofun
  · exact fun item hitem => Context.tame_itemBecomes hd (h.body item (List.mem_of_mem_drop hitem))
  · split
    · exact List.forall_mem_singleton.mpr Context.tame_accessor
    · nofun

/-- **Desugaring leaves a tame file tame.** A declaration that is refused becomes its source. -/
theorem Item.tame_desugarAll (items : List Item) (h : ∀ item ∈ items, item.Tame) :
    ∀ item ∈ (Item.desugarAll o importsSystem Feature.all items).result, item.Tame := by
  induction items using Item.listInduction with
  | nil =>
    rw [Item.desugarAll]
    exact List.forall_mem_nil _
  | cons first rest hinner ih =>
    obtain ⟨hfirst, hrest⟩ := List.forall_mem_cons.mp h
    rw [Item.desugarAll]
    refine List.forall_mem_cons.mpr ⟨?_, ih hrest⟩
    cases hfirst with
    | directive u => exact .directive u
    | raw hcode => exact .raw hcode
    | comment htext => exact .comment htext
    | @scope name fileScoped inner hscope =>
      rw [Item.desugar]
      exact .scope (hinner name fileScoped inner rfl hscope)
    | @declaration d hd =>
      rw [Item.desugar]
      change (d.desugarWith o importsSystem Feature.all).result.toItem.Tame
      cases hresult : (d.desugarWith o importsSystem Feature.all).result with
      | baseline d' =>
        exact .declaration (d.everywhere_of_baseline Declaration.tame_lowered hd d' hresult)
      | unchanged source =>
        obtain ⟨-, -, rfl, -⟩ := Declaration.unchanged_inv hresult
        obtain ⟨hhere, -⟩ := hd
        exact .raw hhere.source

end Lowered

end ClassSugar
