import Mathlib.Data.List.Basic
import Mathlib.Data.List.Flatten
import ClassSugar.Proofs.AllRules

/-!
# What is said about the declarations of a file

Desugaring walks over a file depth first and makes one report for each declaration that it comes
across. It does not go below a declaration that it refuses: that one keeps its text, with all that
is nested in it. So two walks are to be compared, the one that lists every declaration
(`CompilationUnit.declarations`) and the one that stops where a declaration is refused
(`CompilationUnit.reached`).

Everything that desugaring says comes from the second walk, declaration by declaration
(`CompilationUnit.diagnostics_desugar`, `CompilationUnit.reports_desugar`): a declaration that is
refused contributes one error, any other one its lints, and both one report. The main results read
this off:

* `errors_match_reports` — the errors are those of the declarations left as written, in order, and
  everything else is a lint;
* `reports_cover_declarations_iff` — the reports are about all declarations exactly if no refused
  declaration has a nested type.
-/

namespace ClassSugar

/-! ### Nested types -/

/-- The types nested directly in a declaration. -/
def Declaration.nestedTypes (d : Declaration) : List Declaration :=
  d.body.filterMap BodyItem.type?

theorem Declaration.mem_nestedTypes {d n : Declaration} :
    n ∈ d.nestedTypes ↔ .member (.type n) ∈ d.body := by
  unfold Declaration.nestedTypes
  rw [List.mem_filterMap]
  refine ⟨?_, fun h => ⟨_, h, rfl⟩⟩
  rintro ⟨item, hitem, htype⟩
  exact BodyItem.eq_of_type?_eq_some htype ▸ hitem

/-- `Declaration.nestedInduction`, with the nested types as a list. -/
theorem Declaration.typeInduction {P : Declaration → Prop}
    (step : ∀ d : Declaration, (∀ n ∈ d.nestedTypes, P n) → P d) (d : Declaration) : P d := by
  induction d using Declaration.nestedInduction with
  | step header body ih => exact step _ fun n hn => ih n (Declaration.mem_nestedTypes.mp hn)

/-- What the items of a body contribute, if only types contribute anything, comes from the nested
types. -/
theorem Declaration.flatMap_body {α : Type} {f : BodyItem → List α} {g : Declaration → List α}
    (d : Declaration) (hother : ∀ item, item.type? = none → f item = [])
    (htype : ∀ n ∈ d.nestedTypes, f (.member (.type n)) = g n) :
    d.body.flatMap f = d.nestedTypes.flatMap g := by
  rw [← List.flatMap_congr htype]
  unfold Declaration.nestedTypes
  induction d.body with
  | nil => rfl
  | cons item rest ih =>
    rw [List.flatMap_cons, ih]
    cases hitem : item.type? with
    | none => rw [List.filterMap_cons_none hitem, hother item hitem, List.nil_append]
    | some n =>
      rw [List.filterMap_cons_some hitem, List.flatMap_cons, BodyItem.eq_of_type?_eq_some hitem]

/-! ### Two walks over a declaration -/

mutual

/-- A declaration and those nested in it, depth first, but none below one at which the walk
stops. -/
def Declaration.reached (stop : Declaration → Bool) : Declaration → List Declaration
  | ⟨header, body⟩ =>
    ⟨header, body⟩ :: if stop ⟨header, body⟩ then [] else BodyItem.reachedIn stop body

/-- The declarations in the items of a body that the walk reaches. -/
def BodyItem.reachedIn (stop : Declaration → Bool) : List BodyItem → List Declaration
  | [] => []
  | item :: rest => item.reached stop ++ BodyItem.reachedIn stop rest

/-- The declarations in an item of a body that the walk reaches. -/
def BodyItem.reached (stop : Declaration → Bool) : BodyItem → List Declaration
  | .member m => m.reached stop
  | .statement _ => []
  | .comment _ => []

/-- The declarations in a member that the walk reaches. -/
def Member.reached (stop : Declaration → Bool) : Member → List Declaration
  | .type d => d.reached stop
  | .field _ => []
  | .property _ => []
  | .constructor _ => []
  | .method _ => []
  | .raw _ => []

end

namespace Declaration

theorem withNested_eq (d : Declaration) :
    d.withNested = d :: d.nestedTypes.flatMap withNested := by
  obtain ⟨header, body⟩ := d
  rw [withNested, BodyItem.declarations_eq_flatMap]
  -- No item but a type has declarations in it.
  refine congrArg (_ :: ·) (flatMap_body ⟨header, body⟩ ?_ ?_)
  · intro item hitem
    match item with
    | .member (.type n) => cases hitem
    | .member (.field _) | .member (.property _) | .member (.constructor _) | .member (.method _)
    | .member (.raw _) => rw [BodyItem.nested, Member.nested]
    | .statement _ | .comment _ => rw [BodyItem.nested]
  · intro n _
    rw [BodyItem.nested, Member.nested]

variable (stop : Declaration → Bool)

theorem reached_eq (d : Declaration) :
    d.reached stop = d :: if stop d then [] else d.nestedTypes.flatMap (reached stop) := by
  obtain ⟨header, body⟩ := d
  have hbody : BodyItem.reachedIn stop body = body.flatMap (BodyItem.reached stop) := by
    induction body with
    | nil => simp only [BodyItem.reachedIn, List.flatMap_nil]
    | cons item rest ih => rw [BodyItem.reachedIn, ih, List.flatMap_cons]
  have htypes : body.flatMap (BodyItem.reached stop) =
      (nestedTypes ⟨header, body⟩).flatMap (reached stop) := by
    refine flatMap_body ⟨header, body⟩ ?_ ?_
    · intro item hitem
      match item with
      | .member (.type n) => cases hitem
      | .member (.field _) | .member (.property _) | .member (.constructor _)
      | .member (.method _) | .member (.raw _) => rw [BodyItem.reached, Member.reached]
      | .statement _ | .comment _ => rw [BodyItem.reached]
    · intro n _
      rw [BodyItem.reached, Member.reached]
  rw [reached, hbody, htypes]

/-- The walk that stops leaves declarations out and changes nothing else. -/
theorem reached_sublist (d : Declaration) : (d.reached stop).Sublist d.withNested := by
  induction d using typeInduction with
  | step d ih =>
    rw [reached_eq, withNested_eq]
    split
    · exact (List.nil_sublist _).cons_cons d
    · exact (List.Sublist.flatMap_right _ ih).cons_cons d

/-- A declaration at which the walk stops is reached if there is one at all: the outermost. -/
theorem exists_reached_iff (d : Declaration) :
    (∃ x ∈ d.reached stop, stop x = true) ↔ ∃ x ∈ d.withNested, stop x = true := by
  refine ⟨fun ⟨x, hx, hstop⟩ => ⟨x, (d.reached_sublist stop).mem hx, hstop⟩, ?_⟩
  induction d using typeInduction with
  | step d ih =>
    rintro ⟨x, hx, hstop⟩
    rw [reached_eq]
    by_cases hd : stop d = true
    · exact ⟨d, List.mem_cons_self, hd⟩
    · -- The walk goes on, and the declaration that was found is further down.
      rw [withNested_eq, List.mem_cons, List.mem_flatMap] at hx
      obtain rfl | ⟨n, hn, hx⟩ := hx
      · exact absurd hstop hd
      obtain ⟨y, hy, hstop⟩ := ih n hn ⟨x, hx, hstop⟩
      rw [if_neg hd]
      exact ⟨y, List.mem_cons_of_mem d (List.mem_flatMap.mpr ⟨n, hn, hy⟩), hstop⟩

end Declaration

/-- Lists that are put together from parts, those of one within those of the other, are equal only
if all parts are. -/
theorem flatMap_eq_flatMap_iff {α β : Type} {f g : α → List β} {xs : List α}
    (hsub : ∀ x ∈ xs, (f x).Sublist (g x)) :
    xs.flatMap f = xs.flatMap g ↔ ∀ x ∈ xs, f x = g x := by
  refine ⟨fun heq => ?_, List.flatMap_congr⟩
  induction xs with
  | nil => exact List.forall_mem_nil _
  | cons x rest ih =>
    have hrest : ∀ y ∈ rest, (f y).Sublist (g y) := fun y hy => hsub y (List.mem_cons_of_mem x hy)
    rw [List.flatMap_cons, List.flatMap_cons] at heq
    -- Neither part is longer, so with the sums the lengths of the parts agree.
    have hlength : (f x).length = (g x).length := by
      have hfirst := (hsub x List.mem_cons_self).length_le
      have hothers := (List.Sublist.flatMap_right rest hrest).length_le
      have hsum := congrArg List.length heq
      rw [List.length_append, List.length_append] at hsum
      omega
    obtain ⟨hx, hothers⟩ := List.append_inj heq hlength
    exact List.forall_mem_cons.mpr ⟨hx, ih hrest hothers⟩

namespace Declaration

variable (stop : Declaration → Bool)

/-- **When the walk that stops leaves nothing out**: no declaration at which it stops has a nested
type. -/
theorem reached_eq_withNested_iff (d : Declaration) :
    d.reached stop = d.withNested ↔
      ∀ x ∈ d.withNested, stop x = true → x.nestedTypes = [] := by
  induction d using typeInduction with
  | step d ih =>
    rw [reached_eq, withNested_eq, List.cons_eq_cons, eq_self_iff_true, true_and,
      List.forall_mem_cons]
    by_cases hd : stop d = true
    · -- The walk ends here; nothing is left out if there is nothing below.
      rw [if_pos hd]
      refine ⟨fun hnil => ?_, fun h => ?_⟩
      · have htypes : d.nestedTypes = [] := by
          refine List.eq_nil_iff_forall_not_mem.mpr fun n hn => ?_
          have hempty := List.flatMap_eq_nil_iff.mp hnil.symm n hn
          rw [withNested_eq] at hempty
          cases hempty
        rw [htypes]
        exact ⟨fun _ => rfl, List.forall_mem_nil _⟩
      · rw [h.1 hd, List.flatMap_nil]
    · -- The walk goes on, and nothing is left out if that is so for every nested type.
      rw [if_neg hd, flatMap_eq_flatMap_iff fun n _ => n.reached_sublist stop]
      refine ⟨fun h => ⟨fun hstop => absurd hstop hd, ?_⟩, fun h n hn => ?_⟩
      · intro x hx
        obtain ⟨n, hn, hx⟩ := List.mem_flatMap.mp hx
        exact (ih n hn).mp (h n hn) x hx
      · exact (ih n hn).mpr fun x hx => h.2 x (List.mem_flatMap.mpr ⟨n, hn, hx⟩)

end Declaration

/-! ### What is said about a declaration -/

namespace Declaration

variable (o : Options)

/-- Whether a declaration is left as written for a fault of its own. -/
def isRefused (d : Declaration) : Bool :=
  (d.fault? o).isSome

/-- What is said about a declaration, the types nested in it aside: why it is refused, or its
lints. -/
def ownDiagnostics (d : Declaration) : List Diagnostic :=
  match d.fault? o with
  | some refusal => [refusal.toDiagnostic d.name]
  | none => (d.recognition o).diagnostics

/-- The report about a declaration. -/
def ownReport (d : Declaration) : DeclarationReport :=
  match d.fault? o with
  | some _ => ⟨d.name, .empty, false, d.span⟩
  | none => ⟨d.name, (d.recognition o).features, true, d.span⟩

/-- **Everything is said declaration by declaration**, about those that are reached. -/
theorem desugarWith_says (importsSystem : Bool) (d : Declaration) :
    (d.desugarWith o importsSystem Feature.all).diagnostics =
        (d.reached (isRefused o)).flatMap (ownDiagnostics o) ∧
      (d.desugarWith o importsSystem Feature.all).reports =
        (d.reached (isRefused o)).map (ownReport o) := by
  induction d using typeInduction with
  | step d ih =>
    rw [desugarWith_all, reached_eq, List.flatMap_cons, List.map_cons, isRefused, ownDiagnostics,
      ownReport]
    cases d.fault? o with
    | some refusal => exact ⟨rfl, rfl⟩
    | none =>
      -- Items that are no types are passed over in silence, and the nested types come in order.
      have hdiagnostics : (d.body.flatMap fun item => (item.outcome o importsSystem).diagnostics) =
          d.nestedTypes.flatMap fun n => (n.reached (isRefused o)).flatMap (ownDiagnostics o) := by
        refine d.flatMap_body (fun item hitem => ?_) (fun n hn => ?_)
        · rw [BodyItem.outcome_of_type?_eq_none hitem]
          rfl
        · rw [BodyItem.outcome_type]
          exact (ih n hn).1
      have hreports : (d.body.flatMap fun item => (item.outcome o importsSystem).reports) =
          d.nestedTypes.flatMap fun n => (n.reached (isRefused o)).map (ownReport o) := by
        refine d.flatMap_body (fun item hitem => ?_) (fun n hn => ?_)
        · rw [BodyItem.outcome_of_type?_eq_none hitem]
          rfl
        · rw [BodyItem.outcome_type]
          exact (ih n hn).2
      dsimp only [Option.isSome_none]
      rw [if_neg Bool.false_ne_true, List.flatMap_assoc, List.map_flatMap, hdiagnostics, hreports]
      exact ⟨rfl, rfl⟩

/-! ### Errors and lints -/

variable {o}

/-- Lints have one of two codes. -/
theorem code_of_mem_recognition {d : Declaration} {said : Diagnostic}
    (h : said ∈ (d.recognition o).diagnostics) :
    said.code = .misplacedInitializer ∨ said.code = .initializerReadsProperty := by
  change said ∈ if o.extensions.unnamedInitializer then d.initializerLints _ _ else [] at h
  split at h
  · obtain hreads | hmisplaced := List.mem_append.mp h
    · obtain ⟨code, -, hlint⟩ := List.mem_flatMap.mp hreads
      obtain ⟨property, -, rfl⟩ := List.mem_map.mp hlint
      exact .inr rfl
    · obtain ⟨code, -, rfl⟩ := List.mem_map.mp hmisplaced
      exact .inl rfl
  · cases h

end Declaration

/-- The fault is one of the source, and not a rule that is missing. -/
def Refusal.BlamesSource (r : Refusal) : Prop :=
  r.cause.code ≠ .unorderedFeature

/-- Of two checks the one that finds a fault first decides. -/
theorem Refusal.blamesSource_orElse {a b : Option Refusal} (ha : ∀ r ∈ a, r.BlamesSource)
    (hb : ∀ r ∈ b, r.BlamesSource) : ∀ r ∈ (a <|> b), r.BlamesSource := by
  cases a with
  | none => exact hb
  | some refusal => exact ha

theorem Refusal.blamesSource_ite {p : Prop} [Decidable p] {a : Option Refusal}
    (ha : ∀ r ∈ a, r.BlamesSource) : ∀ r ∈ (if p then a else none), r.BlamesSource := by
  split
  · exact ha
  · nofun

namespace Declaration
variable (d : Declaration)

theorem blamesSource_shorthandFault? (shorthand : List Nat) :
    ∀ r ∈ d.shorthandFault? shorthand, r.BlamesSource := by
  intro r hr
  obtain ⟨p, -, rfl⟩ := Option.map_eq_some_iff.mp hr
  nofun

theorem blamesSource_singletonFault? : ∀ r ∈ d.singletonFault?, r.BlamesSource := by
  -- The three checks of a singleton: its head, its constructors, and the name of its accessor.
  have hheader : ∀ r ∈ d.singletonHeaderFault?, r.BlamesSource := by
    intro r hr
    unfold singletonHeaderFault? at hr
    split at hr
    · cases hr
      nofun
    · split at hr
      · cases hr
      · cases hr
        nofun
    · cases hr
  have hconstructor : ∀ k, ∀ r ∈ d.constructorFault? k, r.BlamesSource := by
    intro k r hr
    unfold constructorFault? at hr
    split at hr
    · cases hr
      nofun
    · split at hr
      · cases hr
      · cases hr
        nofun
  have hconstructors : ∀ r ∈ d.constructorsFault?, r.BlamesSource := by
    intro r hr
    unfold constructorsFault? at hr
    extract_lets constructors count at hr
    split at hr
    · cases hr
      nofun
    · obtain ⟨k, -, hk⟩ := Option.bind_eq_some_iff.mp hr
      exact hconstructor k r hk
  refine Refusal.blamesSource_orElse hheader (Refusal.blamesSource_orElse hconstructors ?_)
  refine Refusal.blamesSource_ite fun r hr => ?_
  cases hr
  nofun

end Declaration

theorem Parameter.blamesSource_assertionFault? (nullableContext : Bool) (p : Parameter) :
    ∀ r ∈ p.assertionFault? nullableContext, r.BlamesSource := by
  intro r hr
  unfold Parameter.assertionFault? at hr
  split at hr
  · cases hr
  split at hr
  · cases hr
    nofun
  split at hr
  · cases hr
    nofun
  · cases hr

theorem Declaration.blamesSource_assertionFault? (nullableContext : Bool) (d : Declaration) :
    ∀ r ∈ d.assertionFault? nullableContext, r.BlamesSource := by
  have hparams : ∀ params : List Parameter,
      ∀ r ∈ params.findSome? (Parameter.assertionFault? nullableContext), r.BlamesSource := by
    intro params r hr
    obtain ⟨p, -, hp⟩ := List.exists_of_findSome?_eq_some hr
    exact p.blamesSource_assertionFault? nullableContext r hp
  have hmember : ∀ m : Member, ∀ r ∈ m.assertionFault? nullableContext, r.BlamesSource := by
    intro m
    refine Refusal.blamesSource_orElse (hparams m.params) ?_
    cases m with
    | method m =>
      refine Refusal.blamesSource_ite fun r hr => ?_
      obtain ⟨p, -, rfl⟩ := Option.map_eq_some_iff.mp hr
      nofun
    | field _ | property _ | constructor _ | type _ | raw _ => nofun
  refine Refusal.blamesSource_orElse (hparams d.primaryParams) fun r hr => ?_
  obtain ⟨m, -, hm⟩ := List.exists_of_findSome?_eq_some hr
  exact hmember m r hm

/-- **A declaration is refused for what it says**, never for a rule that is missing. -/
theorem Declaration.blamesSource_fault? (o : Options) (d : Declaration) :
    ∀ r ∈ d.fault? o, r.BlamesSource :=
  Refusal.blamesSource_orElse
    (Refusal.blamesSource_ite (d.blamesSource_shorthandFault? _))
    (Refusal.blamesSource_orElse (Refusal.blamesSource_ite d.blamesSource_singletonFault?)
      (Refusal.blamesSource_ite (d.blamesSource_assertionFault? _)))

/-! ### Files -/

mutual

/-- The declarations of an item that are nested in no other one. Namespaces do not count. -/
def Item.outermost : Item → List Declaration
  | .declaration d => [d]
  | .scope _ _ items => Item.outermostOf items
  | .directive _ => []
  | .raw _ => []
  | .comment _ => []

/-- The declarations of a list of items that are nested in no other one. -/
def Item.outermostOf : List Item → List Declaration
  | [] => []
  | item :: rest => item.outermost ++ Item.outermostOf rest

end

theorem Item.declarationsOf_eq (items : List Item) :
    Item.declarationsOf items = (Item.outermostOf items).flatMap Declaration.withNested := by
  induction items using Item.listInduction with
  | nil => simp only [Item.declarationsOf, Item.outermostOf, List.flatMap_nil]
  | cons item rest hinner ih =>
    rw [Item.declarationsOf, Item.outermostOf, List.flatMap_append, ih]
    refine congrArg (· ++ _) ?_
    cases item with
    | declaration d => rw [Item.declarations, Item.outermost, List.flatMap_singleton]
    | scope name fileScoped inner =>
      rw [Item.declarations, Item.outermost, hinner name fileScoped inner rfl]
    | directive _ | raw _ | comment _ => rw [Item.declarations, Item.outermost, List.flatMap_nil]

/-- What is said about a list of items is what is said about its outermost declarations. -/
theorem Item.desugarAll_says (o : Options) (importsSystem : Bool) (items : List Item) :
    (Item.desugarAll o importsSystem Feature.all items).diagnostics =
        ((Item.outermostOf items).flatMap fun d =>
          (d.desugarWith o importsSystem Feature.all).diagnostics) ∧
      (Item.desugarAll o importsSystem Feature.all items).reports =
        (Item.outermostOf items).flatMap fun d =>
          (d.desugarWith o importsSystem Feature.all).reports := by
  induction items using Item.listInduction with
  | nil =>
    rw [Item.desugarAll, Item.outermostOf]
    exact ⟨rfl, rfl⟩
  | cons item rest hinner ih =>
    rw [Item.desugarAll, Item.outermostOf, List.flatMap_append, List.flatMap_append, ← ih.1, ← ih.2]
    cases item with
    | declaration d =>
      rw [Item.desugar, Item.outermost, List.flatMap_singleton, List.flatMap_singleton]
      exact ⟨rfl, rfl⟩
    | scope name fileScoped inner =>
      obtain ⟨hdiagnostics, hreports⟩ := hinner name fileScoped inner rfl
      rw [Item.desugar, Item.outermost, ← hdiagnostics, ← hreports]
      exact ⟨rfl, rfl⟩
    | directive _ | raw _ | comment _ =>
      rw [Item.desugar, Item.outermost]
      exact ⟨rfl, rfl⟩

namespace CompilationUnit

/-- The declarations of a file, depth first, but none below one at which the walk stops. -/
def reached (stop : Declaration → Bool) (u : CompilationUnit) : List Declaration :=
  (Item.outermostOf u.items).flatMap (Declaration.reached stop)

variable (o : Options) (u : CompilationUnit)

theorem diagnostics_desugar :
    (u.desugar o).diagnostics =
      (u.reached (Declaration.isRefused o)).flatMap (Declaration.ownDiagnostics o) := by
  rw [reached, List.flatMap_assoc]
  refine (Item.desugarAll_says o u.importsSystem u.items).1.trans (List.flatMap_congr ?_)
  exact fun d _ => (d.desugarWith_says o u.importsSystem).1

theorem reports_desugar :
    (u.desugar o).reports =
      (u.reached (Declaration.isRefused o)).map (Declaration.ownReport o) := by
  rw [reached, List.map_flatMap]
  refine (Item.desugarAll_says o u.importsSystem u.items).2.trans (List.flatMap_congr ?_)
  exact fun d _ => (d.desugarWith_says o u.importsSystem).2

variable (stop : Declaration → Bool)

theorem mem_declarations {d : Declaration} :
    d ∈ u.declarations ↔ ∃ outer ∈ Item.outermostOf u.items, d ∈ outer.withNested := by
  unfold declarations
  rw [Item.declarationsOf_eq, List.mem_flatMap]

theorem exists_reached_iff :
    (∃ d ∈ u.reached stop, stop d = true) ↔ ∃ d ∈ u.declarations, stop d = true := by
  -- Both walks start at the outermost declarations, one after the other.
  have houtermost : ∀ walk : Declaration → List Declaration,
      (∃ d ∈ (Item.outermostOf u.items).flatMap walk, stop d = true) ↔
        ∃ outer ∈ Item.outermostOf u.items, ∃ d ∈ walk outer, stop d = true := by
    intro walk
    simp only [List.mem_flatMap]
    exact ⟨fun ⟨d, ⟨outer, houter, hd⟩, hstop⟩ => ⟨outer, houter, d, hd, hstop⟩,
      fun ⟨outer, houter, d, hd, hstop⟩ => ⟨d, ⟨outer, houter, hd⟩, hstop⟩⟩
  rw [reached, declarations, Item.declarationsOf_eq, houtermost, houtermost]
  exact exists_congr fun outer => and_congr_right fun _ => outer.exists_reached_iff stop

theorem reached_sublist : (u.reached stop).Sublist u.declarations := by
  unfold reached declarations
  rw [Item.declarationsOf_eq]
  exact List.Sublist.flatMap_right _ fun d _ => d.reached_sublist stop

theorem reached_eq_declarations_iff :
    u.reached stop = u.declarations ↔
      ∀ d ∈ u.declarations, stop d = true → d.nestedTypes = [] := by
  have hparts : u.reached stop = u.declarations ↔
      ∀ outer ∈ Item.outermostOf u.items, outer.reached stop = outer.withNested := by
    unfold reached declarations
    rw [Item.declarationsOf_eq, flatMap_eq_flatMap_iff fun d _ => d.reached_sublist stop]
  rw [hparts]
  refine ⟨fun h d hd => ?_, fun h outer houter => ?_⟩
  · obtain ⟨outer, houter, hd⟩ := u.mem_declarations.mp hd
    exact (outer.reached_eq_withNested_iff stop).mp (h outer houter) d hd
  · refine (outer.reached_eq_withNested_iff stop).mpr fun d hd => ?_
    exact h d (u.mem_declarations.mpr ⟨outer, houter, hd⟩)

end CompilationUnit

/-! ### Errors and reports -/

/-- The code for a missing rule is shown like no other. -/
theorem Diagnostic.Code.eq_unorderedFeature_of_text {c : Diagnostic.Code}
    (h : c.text = "SS0900") : c = .unorderedFeature := by
  revert h
  cases c <;> decide

namespace Declaration

variable (o : Options)

theorem name_ownReport (d : Declaration) : (d.ownReport o).name = d.name := by
  unfold ownReport
  split <;> rfl

theorem span_ownReport (d : Declaration) : (d.ownReport o).span = d.span := by
  unfold ownReport
  split <;> rfl

theorem desugared_ownReport (d : Declaration) : (d.ownReport o).desugared = !d.isRefused o := by
  unfold ownReport isRefused
  cases d.fault? o <;> rfl

/-- What is said about a declaration is one error if it is refused, and lints if it is not. -/
theorem cases_of_mem_ownDiagnostics {d : Declaration} {said : Diagnostic}
    (h : said ∈ d.ownDiagnostics o) :
    (said.isError = true ∧ said.code ≠ .unorderedFeature) ∨
      said.code = .misplacedInitializer ∨ said.code = .initializerReadsProperty := by
  unfold ownDiagnostics at h
  cases hfault : d.fault? o with
  | some refusal =>
    rw [hfault, List.mem_singleton] at h
    subst h
    exact .inl ⟨refusal.isError_toDiagnostic d.name, d.blamesSource_fault? o refusal hfault⟩
  | none =>
    rw [hfault] at h
    exact .inr (code_of_mem_recognition h)

theorem map_declaration_errors (d : Declaration) :
    ((d.ownDiagnostics o).filter Diagnostic.isError).map Diagnostic.declaration =
      if d.isRefused o then [some d.name] else [] := by
  unfold ownDiagnostics isRefused
  cases d.fault? o with
  | some refusal =>
    rw [List.filter_cons_of_pos (refusal.isError_toDiagnostic d.name)]
    rfl
  | none =>
    have hlints : (d.recognition o).diagnostics.filter Diagnostic.isError = [] := by
      rw [List.filter_eq_nil_iff]
      intro said hsaid
      unfold Diagnostic.isError Diagnostic.severity
      obtain hcode | hcode := code_of_mem_recognition hsaid <;> rw [hcode] <;> decide
    dsimp only
    rw [hlints]
    rfl

/-- **Errors and refused declarations go together**, one for one and in order. -/
theorem map_declaration_errors_flatMap (ds : List Declaration) :
    ((ds.flatMap (ownDiagnostics o)).filter Diagnostic.isError).map Diagnostic.declaration =
      (ds.filter (isRefused o)).map fun d => some d.name := by
  induction ds with
  | nil => rfl
  | cons d rest ih =>
    rw [List.flatMap_cons, List.filter_append, List.map_append, map_declaration_errors, ih,
      List.filter_cons]
    split <;> rfl

end Declaration

/-- There is an error exactly if a declaration that is reached is refused. -/
theorem CompilationUnit.hasErrors_iff (o : Options) (u : CompilationUnit) :
    (u.desugar o).hasErrors = true ↔
      ∃ d ∈ u.reached (Declaration.isRefused o), d.isRefused o = true := by
  have herrors := Declaration.map_declaration_errors_flatMap o
    (u.reached (Declaration.isRefused o))
  rw [← u.diagnostics_desugar] at herrors
  have hnone : (u.desugar o).diagnostics.filter Diagnostic.isError = [] ↔
      (u.reached (Declaration.isRefused o)).filter (Declaration.isRefused o) = [] := by
    simpa only [List.map_eq_nil_iff, eq_iff_iff] using congrArg (· = []) herrors
  calc (u.desugar o).hasErrors = true
      ↔ ¬ (u.desugar o).diagnostics.filter Diagnostic.isError = [] := by
        rw [Outcome.hasErrors, List.filter_eq_nil_iff]
        simp
    _ ↔ ¬ (u.reached (Declaration.isRefused o)).filter (Declaration.isRefused o) = [] :=
        not_congr hnone
    _ ↔ ∃ d ∈ u.reached (Declaration.isRefused o), d.isRefused o = true := by
        rw [List.filter_eq_nil_iff]
        simp

/-- **Errors are booked exactly.** Of a file that is desugared, with all rules and any options:

* the errors are about the declarations that are reported as left as written, one for each and in
  the order of the reports;
* everything else that is said is a warning with one of the two codes for lints;
* no rule is ever missing.

So there is an error exactly if some declaration is reported as left as written, and exactly if some
declaration of the file, however deep, is refused. -/
theorem errors_match_reports (o : Options) (u : CompilationUnit) :
    let out := u.desugar o
    (out.diagnostics.filter Diagnostic.isError).map Diagnostic.declaration =
        (out.reports.filter fun r => !r.desugared).map (fun r => some r.name) ∧
      (∀ said ∈ out.diagnostics, said.isError = false →
        said.severity = .warning ∧ (said.code.text = "SS0001" ∨ said.code.text = "SS0002")) ∧
      (∀ said ∈ out.diagnostics, said.code.text ≠ "SS0900") ∧
      (out.hasErrors = true ↔ ∃ r ∈ out.reports, r.desugared = false) ∧
      (out.hasErrors = true ↔ ∃ d ∈ u.declarations, d.isRefused o = true) := by
  intro out
  -- Diagnostics and reports come from one walk, so they are compared declaration by declaration.
  obtain ⟨ds, hds⟩ : ∃ ds, u.reached (Declaration.isRefused o) = ds := ⟨_, rfl⟩
  have hdiagnostics : out.diagnostics = ds.flatMap (Declaration.ownDiagnostics o) :=
    hds ▸ u.diagnostics_desugar o
  have hreports : out.reports = ds.map (Declaration.ownReport o) := hds ▸ u.reports_desugar o
  have hleft : (out.reports.filter fun r => !r.desugared).map (fun r => some r.name) =
      (ds.filter (Declaration.isRefused o)).map fun d => some d.name := by
    rw [hreports, List.filter_map, List.map_map]
    simp only [Function.comp_def, Declaration.desugared_ownReport, Declaration.name_ownReport,
      Bool.not_not]
  have hsaid : ∀ said ∈ out.diagnostics,
      (said.isError = true ∧ said.code ≠ .unorderedFeature) ∨
        said.code = .misplacedInitializer ∨ said.code = .initializerReadsProperty := by
    intro said hsaid
    rw [hdiagnostics] at hsaid
    obtain ⟨d, -, hd⟩ := List.mem_flatMap.mp hsaid
    exact Declaration.cases_of_mem_ownDiagnostics o hd
  refine ⟨?_, ?_, ?_, ?_, ?_⟩
  · rw [hleft, hdiagnostics, Declaration.map_declaration_errors_flatMap]
  · intro said hmem hwarning
    rcases hsaid said hmem with ⟨herror, -⟩ | hcode | hcode
    · rw [hwarning] at herror
      cases herror
    · rw [Diagnostic.severity, hcode]
      exact ⟨rfl, .inl rfl⟩
    · rw [Diagnostic.severity, hcode]
      exact ⟨rfl, .inr rfl⟩
  · intro said hmem
    rcases hsaid said hmem with ⟨-, hcode⟩ | hcode | hcode
    · exact fun htext => hcode (Diagnostic.Code.eq_unorderedFeature_of_text htext)
    · rw [hcode]
      decide
    · rw [hcode]
      decide
  · rw [u.hasErrors_iff, hds, hreports]
    simp [Declaration.desugared_ownReport]
  · rw [u.hasErrors_iff, u.exists_reached_iff]

/-- **When the reports cover a file.** Reports are made about the declarations that are reached,
depth first, each with its name and its place: those that no enclosing declaration hides by being
refused. So they are about all declarations of the file exactly if no declaration that is refused
has a nested type. -/
theorem reports_cover_declarations_iff (o : Options) (u : CompilationUnit) :
    (u.desugar o).reports.map (fun r => (r.name, r.span)) =
        (u.reached (Declaration.isRefused o)).map (fun d => (d.name, d.span)) ∧
      ((u.desugar o).reports.map (fun r => (r.name, r.span)) =
          u.declarations.map (fun d => (d.name, d.span)) ↔
        ∀ d ∈ u.declarations, d.isRefused o = true → d.nestedTypes = []) := by
  have hreports : (u.desugar o).reports.map (fun r => (r.name, r.span)) =
      (u.reached (Declaration.isRefused o)).map (fun d => (d.name, d.span)) := by
    rw [u.reports_desugar, List.map_map]
    refine List.map_congr_left fun d _ => ?_
    rw [Function.comp_apply, d.name_ownReport, d.span_ownReport]
  refine ⟨hreports, ?_⟩
  rw [hreports, ← u.reached_eq_declarations_iff]
  refine ⟨fun h => ?_, congrArg _⟩
  -- Nothing is added to the walk, so with as many names it is the whole of it.
  have hlength := congrArg List.length h
  rw [List.length_map, List.length_map] at hlength
  exact (u.reached_sublist _).eq_of_length hlength

/-- `singleton class Outer(int x)`, which is refused for its parameter, with `class Inner` in it. -/
def hiddenInner : CompilationUnit where
  items := [.declaration {
    attributes := []
    modifiers := []
    kind := .plain
    singleton := true
    name := "Outer"
    typeParams := none
    params := some [⟨[], [], ⟨"int"⟩, "x", none, none, .nowhere⟩]
    constructorAccess := none
    bases := []
    constraints := []
    source := .made ""
    span := ⟨1, 61⟩
    body := [.member (.type {
      attributes := []
      modifiers := []
      kind := .plain
      singleton := false
      name := "Inner"
      typeParams := none
      params := none
      constructorAccess := none
      bases := []
      constraints := []
      source := .made ""
      span := ⟨36, 59⟩
      body := [] })] }]

/-- There is no report about the inner class. -/
theorem reports_cover_declarations_iff_hiddenInner :
    (hiddenInner.desugar {}).reports.map (fun r => (r.name, r.span)) = [("Outer", ⟨1, 61⟩)] ∧
      hiddenInner.declarations.map (fun d => (d.name, d.span)) =
        [("Outer", ⟨1, 61⟩), ("Inner", ⟨36, 59⟩)] ∧
      ¬ (hiddenInner.desugar {}).reports.map (fun r => (r.name, r.span)) =
        hiddenInner.declarations.map (fun d => (d.name, d.span)) := by
  refine ⟨by decide +kernel, by decide +kernel, fun h => ?_⟩
  have houter := (reports_cover_declarations_iff {} hiddenInner).2.mp h
  cases houter _ List.mem_cons_self rfl

end ClassSugar
