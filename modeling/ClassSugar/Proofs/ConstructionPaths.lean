import Mathlib.Data.List.Infix
import ClassSugar.Proofs.ConstructorBodies

/-!
# The unnamed initializer on the paths of construction

The loose statements that open a class body are to run once whenever an instance is made. An
instance is made along a path of constructors (`Constructor.Path`): the one that is called may call
another one of the class through `this(...)`, and so on, up to one that calls none. So each
constructor that ends a path has to open with the initializer, after checks at most, and the others
must not have it (`Declaration.Initialized`); then it is met once on every path
(`Constructor.Path.countP_eq_one`).

`initializer_on_every_path_iff` says when desugaring brings this about. A constructor that the
header implies takes the initializer for the whole class, so constructors of the source beside it
are left alone, also those that do not call it. The initializer reaches every path exactly if there
is no such constructor, one that says all of the initializer itself apart.

The argument compares bodies with what opens them. Checks are statements of other forms than those
of an initializer (`Context.IsCheck.not_isWritten`), so checks in front of a body neither add an
occurrence of the initializer nor hide one.
-/

namespace ClassSugar

/-! ### Checks and written statements -/

/-- A statement that comes from the source: code or a comment. -/
def Statement.isWritten : Statement → Bool
  | .source _ => true
  | .comment _ => true
  | _ => false

namespace Context

/-- A statement that only checks something: that a singleton is made once, or that an argument is
not null. -/
def IsCheck (c : Context) (s : Statement) : Prop :=
  s = c.singletonGuard ∨ ∃ name, s = c.nullGuard name

variable {c : Context}

theorem IsCheck.not_isWritten {s : Statement} (h : c.IsCheck s) : s.isWritten = false := by
  obtain rfl | ⟨name, rfl⟩ := h
  · rfl
  · unfold nullGuard
    split <;> rfl

theorem isCheck_of_mem_singletonChecks {s : Statement} (h : s ∈ c.singletonChecks) :
    c.IsCheck s := by
  unfold singletonChecks at h
  split at h
  · exact .inl (List.mem_singleton.mp h)
  · cases h

theorem isCheck_of_mem_assertionChecks {named : List (Parameter × String)} {s : Statement}
    (h : s ∈ c.assertionChecks named) : c.IsCheck s := by
  unfold assertionChecks at h
  split at h
  · obtain ⟨x, -, rfl⟩ := List.mem_map.mp h
    exact .inr ⟨x.2, rfl⟩
  · cases h

theorem isWritten_of_mem_initializerStatements {s : Statement}
    (h : s ∈ c.initializerStatements) : s.isWritten = true := by
  obtain ⟨item, -, hs⟩ := List.mem_filterMap.mp h
  cases item with
  | member m => cases hs
  | statement _ | comment _ =>
    cases hs
    rfl

end Context

/-- **Checks in front of a body do not matter.** A list of written statements that follows some
checks of a longer run of checks follows all of them. -/
theorem exists_of_append_eq {c : Context} {checks front items body rest : List Statement}
    (hchecks : ∀ s ∈ checks, c.IsCheck s) (hitems : ∀ s ∈ items, s.isWritten = true)
    (hne : items ≠ []) (h : checks ++ body = front ++ items ++ rest) :
    ∃ later, front = checks ++ later ∧ body = later ++ items ++ rest := by
  rw [List.append_assoc, List.append_eq_append_iff] at h
  obtain ⟨later, hfront, hbody⟩ | ⟨extra, hextra, hitem⟩ := h
  · exact ⟨later, hfront, by rw [hbody, List.append_assoc]⟩
  · -- The first of the items would be a check.
    cases extra with
    | nil =>
      refine ⟨[], ?_, ?_⟩
      · rw [hextra, List.append_nil, List.append_nil]
      · rw [← List.nil_append body, ← hitem, List.nil_append]
    | cons s extra =>
      obtain ⟨first, others, rfl⟩ := List.exists_cons_of_ne_nil hne
      obtain rfl : first = s := by
        rw [List.cons_append, List.cons_append, List.cons.injEq] at hitem
        exact hitem.1
      have hcheck : c.IsCheck first := hchecks first (by rw [hextra]; simp)
      have hwritten : first.isWritten = true := hitems first List.mem_cons_self
      rw [hcheck.not_isWritten] at hwritten
      cases hwritten

/-- A body starts with checks and goes on with the given statements. -/
def Block.OpensWith (c : Context) (items : List Statement) (b : Block) : Prop :=
  ∃ checks rest, b.stmts = checks ++ items ++ rest ∧ ∀ s ∈ checks, c.IsCheck s

section Front

variable {c : Context} {checks items : List Statement} (hchecks : ∀ s ∈ checks, c.IsCheck s)
  (hitems : ∀ s ∈ items, s.isWritten = true) (hne : items ≠ [])
include hchecks hitems hne

theorem infix_checks_append_iff {body : List Statement} :
    items <:+: checks ++ body ↔ items <:+: body := by
  constructor
  · rintro ⟨front, rest, h⟩
    obtain ⟨later, -, hbody⟩ := exists_of_append_eq hchecks hitems hne h.symm
    exact ⟨later, rest, hbody.symm⟩
  · exact fun h => h.trans (List.suffix_append checks body).isInfix

theorem opensWith_checks_append_iff {body : List Statement} :
    Block.OpensWith c items ⟨checks ++ body⟩ ↔ Block.OpensWith c items ⟨body⟩ := by
  constructor
  · rintro ⟨front, rest, h, hfront⟩
    obtain ⟨later, rfl, hbody⟩ := exists_of_append_eq hchecks hitems hne h
    exact ⟨later, rest, hbody, fun s hs => hfront s (List.mem_append_right checks hs)⟩
  · rintro ⟨front, rest, h, hfront⟩
    change body = front ++ items ++ rest at h
    refine ⟨checks ++ front, rest, ?_, ?_⟩
    · rw [h]
      simp only [List.append_assoc]
    · exact fun s hs => (List.mem_append.mp hs).elim (hchecks s) (hfront s)

end Front

/-! ### Paths of construction -/

/-- The constructors that run when an instance is made, from the called one on: each of them calls
the next, and the last one calls none of the class. Which constructor a call selects is open. -/
inductive Constructor.Path (ks : List Constructor) : List Constructor → Prop where
  | root {k : Constructor} (hk : k ∈ ks) (hroot : k.isRoot = true) : Path ks [k]
  | call {k : Constructor} {rest : List Constructor} (hk : k ∈ ks) (hstatic : k.isStatic = false)
      (hcall : k.chainsToThis = true) (hrest : Path ks rest) : Path ks (k :: rest)

/-- Some statements stand where every instance is made: each constructor that calls no other one of
the class opens with them, and the others do not have them. -/
def Declaration.Initialized (c : Context) (items : List Statement) (d : Declaration) : Prop :=
  ∀ k ∈ d.constructors, k.isStatic = false →
    (k.chainsToThis = true ∧ ¬items <:+: k.body.stmts) ∨
      (k.chainsToThis = false ∧ k.body.OpensWith c items)

/-- **Once on every path.** By induction on the path: its root has the statements, and the
constructors before it have not. -/
theorem Constructor.Path.countP_eq_one {c : Context} {items : List Statement} {d : Declaration}
    {path : List Constructor} (hpath : Constructor.Path d.constructors path)
    (h : d.Initialized c items) :
    path.countP (fun k => decide (items <:+: k.body.stmts)) = 1 := by
  induction hpath with
  | @root k hk hroot =>
    -- The path ends here, so this constructor is one of those that open with the statements.
    simp only [Constructor.isRoot, Bool.and_eq_true, Bool.not_eq_true'] at hroot
    obtain ⟨hcall, -⟩ | ⟨-, checks, rest, hbody, -⟩ := h k hk hroot.1
    · rw [hroot.2] at hcall
      cases hcall
    · have hinfix : items <:+: k.body.stmts := ⟨checks, rest, hbody.symm⟩
      rw [List.countP_singleton, if_pos (decide_eq_true hinfix)]
  | @call k rest hk hstatic hcall hrest ih =>
    -- A constructor that goes on to another one adds nothing to the count.
    obtain ⟨-, hnot⟩ | ⟨hroot, -⟩ := h k hk hstatic
    · rw [List.countP_cons_of_neg (by simpa using hnot), ih]
    · rw [hcall] at hroot
      cases hroot

/-! ### What desugaring does -/

section Lowered

variable {o : Options} {importsSystem : Bool} {d : Declaration} {c : Context}
  (hc : Context.of o importsSystem d = c)
include hc

/-- A new constructor calls a constructor of the base at most. -/
theorem Context.chainsToThis_newConstructor :
    (c.fullPlan.newConstructor c).chainsToThis = false := by
  have hcall : (c.fullPlan.newConstructor c).initializer =
      if d.hasPrimaryConstructor then c.baseCall else none := by
    change c.fullPlan.primary.bind PrimaryPlan.baseCall = _
    rw [Context.primary_fullPlan hc]
    split <;> rfl
  have hbase : ∀ text : String, Text.startsWith ("base(" ++ text ++ ")") "this" = false := by
    intro text
    simp only [Text.startsWith, String.toList_append]
    rfl
  unfold Constructor.chainsToThis
  rw [hcall]
  cases hargs : (if d.hasPrimaryConstructor then c.baseCall else none) with
  | none => rfl
  | some call =>
    split at hargs
    · obtain ⟨args, -, rfl⟩ := Option.map_eq_some_iff.mp hargs
      exact hbase _
    · cases hargs

theorem Context.opensWith_newConstructor (h : d.getsConstructor o = true) :
    (c.fullPlan.newConstructor c).body.OpensWith c c.initializerStatements := by
  have hbody : (c.fullPlan.newConstructor c).body.stmts = _ :=
    Context.constructorBody_fullPlan hc h
  refine ⟨c.singletonChecks ++ c.assertionChecks c.namedParams, _,
    hbody.trans ((List.append_assoc _ _ _).trans (List.append_assoc _ _ _)), ?_⟩
  intro s hs
  rcases List.mem_append.mp hs with hs | hs
  · exact Context.isCheck_of_mem_singletonChecks hs
  · exact Context.isCheck_of_mem_assertionChecks hs

/-- What opens a constructor of the source are checks, and the initializer if instances are made
through it. -/
theorem Context.stmts_patchedConstructor (k : Constructor) :
    ∃ checks, (∀ s ∈ checks, c.IsCheck s) ∧
      (c.patchedConstructor k).body.stmts =
        checks ++ (if d.isTarget k then c.initializerStatements else []) ++ k.body.stmts := by
  have htarget : c.declaration.isTarget k = d.isTarget k := hc ▸ rfl
  refine ⟨(if d.isTarget k then c.singletonChecks else []) ++
    c.assertionChecks (k.params.map fun p => (p, p.name)), ?_, ?_⟩
  · intro s hs
    rcases List.mem_append.mp hs with hs | hs
    · split at hs
      · exact Context.isCheck_of_mem_singletonChecks hs
      · cases hs
    · exact Context.isCheck_of_mem_assertionChecks hs
  · rw [← htarget]
    rfl

/-- **One constructor of the source.** It ends up where the initializer belongs, or it stays as far
from it as it was. -/
theorem Context.initialized_patchedConstructor_iff (hne : c.initializerStatements ≠ [])
    (k : Constructor) :
    ((c.patchedConstructor k).isStatic = false →
      ((c.patchedConstructor k).chainsToThis = true ∧
        ¬c.initializerStatements <:+: (c.patchedConstructor k).body.stmts) ∨
      ((c.patchedConstructor k).chainsToThis = false ∧
        (c.patchedConstructor k).body.OpensWith c c.initializerStatements)) ↔
      (k.isRoot = true → d.hasPrimaryConstructor = true →
        k.body.OpensWith c c.initializerStatements) ∧
      (k.isStatic = false → k.chainsToThis = true →
        ¬c.initializerStatements <:+: k.body.stmts) := by
  obtain ⟨checks, hchecks, hstmts⟩ := Context.stmts_patchedConstructor hc k
  have hwritten : ∀ s ∈ c.initializerStatements, s.isWritten = true :=
    fun s hs => Context.isWritten_of_mem_initializerStatements hs
  -- The plan changes neither the modifiers of a constructor nor the constructor that it calls.
  change (k.isStatic = false → (k.chainsToThis = true ∧ _) ∨ (k.chainsToThis = false ∧ _)) ↔ _
  unfold Constructor.isRoot
  cases hstatic : k.isStatic with
  | true => simp
  | false =>
    cases hcall : k.chainsToThis with
    | true =>
      -- It goes on to another constructor: only checks are put in front of it.
      have htarget : d.isTarget k = false := by
        simp [Declaration.isTarget, Constructor.isRoot, hcall]
      rw [htarget, if_neg Bool.false_ne_true, List.append_nil] at hstmts
      simp [hstmts, infix_checks_append_iff hchecks hwritten hne]
    | false =>
      cases hprimary : d.hasPrimaryConstructor with
      | true =>
        -- It ends a path, but the implied constructor took the initializer.
        have htarget : d.isTarget k = false := by simp [Declaration.isTarget, hprimary]
        rw [htarget, if_neg Bool.false_ne_true, List.append_nil] at hstmts
        have hblock : (c.patchedConstructor k).body = ⟨checks ++ k.body.stmts⟩ :=
          congrArg Block.mk hstmts
        simp [hblock, opensWith_checks_append_iff hchecks hwritten hne]
      | false =>
        -- It ends a path and gets the initializer.
        have htarget : d.isTarget k = true := by
          simp [Declaration.isTarget, Constructor.isRoot, hprimary, hstatic, hcall]
        rw [htarget, if_pos rfl] at hstmts
        have hopens : (c.patchedConstructor k).body.OpensWith c c.initializerStatements :=
          ⟨checks, k.body.stmts, hstmts, hchecks⟩
        simp [hopens]

/-- **When the initializer stands where every instance is made.** Beside a constructor that the
header implies, a constructor of the source has it only if it says it itself; elsewhere desugaring
puts it where it belongs. -/
theorem Declaration.initialized_lowered_iff (hne : c.initializerStatements ≠ []) :
    (d.lowered o importsSystem).Initialized c c.initializerStatements ↔
      (∀ k ∈ d.constructors, k.isRoot = true → d.hasPrimaryConstructor = true →
        k.body.OpensWith c c.initializerStatements) ∧
      ∀ k ∈ d.constructors, k.isStatic = false → k.chainsToThis = true →
        ¬c.initializerStatements <:+: k.body.stmts := by
  unfold Declaration.Initialized
  rw [Context.constructors_lowered hc, List.forall_mem_append, List.forall_mem_map]
  simp only [Context.initialized_patchedConstructor_iff hc hne, forall_and]
  refine and_iff_right ?_
  intro k hk _
  split at hk
  · next hnew =>
    obtain rfl := List.mem_singleton.mp hk
    exact .inr ⟨Context.chainsToThis_newConstructor hc, Context.opensWith_newConstructor hc hnew⟩
  · cases hk

/-- The initializer is not lost: a constructor that calls no other one opens with it. -/
theorem Declaration.exists_opensWith_lowered (hne : c.initializerStatements ≠ []) :
    ∃ k ∈ (d.lowered o importsSystem).constructors, k.chainsToThis = false ∧
      k.body.OpensWith c c.initializerStatements := by
  rw [Context.constructors_lowered hc]
  cases hnew : d.getsConstructor o with
  | true =>
    exact ⟨_, List.mem_append_left _ List.mem_cons_self, Context.chainsToThis_newConstructor hc,
      Context.opensWith_newConstructor hc hnew⟩
  | false =>
    -- Without a new constructor the initializer has gone to one of the source.
    have hitems : (o.extensions.unnamedInitializer && decide (0 < d.initializerLength)) = true := by
      by_contra hnot
      exact hne ((Context.initializerStatements_eq_nil_iff hc).mpr (by simpa using hnot))
    simp only [Declaration.getsConstructor, hitems, Bool.or_true, Bool.and_true,
      Bool.or_eq_false_iff, List.all_eq_false, Bool.not_eq_true', Bool.not_eq_false] at hnew
    obtain ⟨hprimary, k, hk, hroot⟩ := hnew
    obtain ⟨checks, hchecks, hstmts⟩ := Context.stmts_patchedConstructor hc k
    have htarget : d.isTarget k = true := by simp [Declaration.isTarget, hprimary, hroot]
    rw [htarget, if_pos rfl] at hstmts
    refine ⟨c.patchedConstructor k, List.mem_append_right _ (List.mem_map_of_mem hk), ?_,
      checks, k.body.stmts, hstmts, hchecks⟩
    simp only [Constructor.isRoot, Bool.and_eq_true, Bool.not_eq_true'] at hroot
    exact hroot.2

end Lowered

/-- **The unnamed initializer on the paths of construction.** Of a declaration with an initializer
that is desugared, some constructor that ends a path opens with the initializer. All of them do, and
no other instance constructor has it, exactly under two conditions on the source: if the header
implies a constructor, then every other constructor that does not call one of the class says the
initializer itself; and no constructor that calls another one says it. Then the initializer is met
once on every path. -/
theorem initializer_on_every_path_iff {o : Options} {importsSystem : Bool} {d d' : Declaration}
    (hon : o.extensions.unnamedInitializer = true) (hlead : 0 < d.initializerLength)
    (h : (d.desugarWith o importsSystem Feature.all).result = .baseline d') :
    let c := Context.of o importsSystem d
    let items := c.initializerStatements
    (∃ k ∈ d'.constructors, k.chainsToThis = false ∧ k.body.OpensWith c items) ∧
    (d'.Initialized c items ↔
      (∀ k ∈ d.constructors, k.isRoot = true → d.hasPrimaryConstructor = true →
        k.body.OpensWith c items) ∧
      ∀ k ∈ d.constructors, k.isStatic = false → k.chainsToThis = true →
        ¬items <:+: k.body.stmts) ∧
    (d'.Initialized c items → ∀ path, Constructor.Path d'.constructors path →
      path.countP (fun k => decide (items <:+: k.body.stmts)) = 1) := by
  intro c items
  obtain ⟨-, rfl, -⟩ := Declaration.baseline_inv h
  have hc : Context.of o importsSystem d = c := rfl
  have hne : items ≠ [] := by
    intro hnil
    have hnone := (Context.initializerStatements_eq_nil_iff hc).mp hnil
    simp [hon, hlead] at hnone
  exact ⟨Declaration.exists_opensWith_lowered hc hne, Declaration.initialized_lowered_iff hc hne,
    fun hinitialized path hpath => hpath.countP_eq_one hinitialized⟩

/-- `class C : public()` with a loose statement and a constructor that does not call the implied
one. -/
def bypassedInitializer : Declaration where
  attributes := []
  modifiers := []
  kind := .plain
  singleton := false
  name := "C"
  typeParams := none
  params := none
  constructorAccess := some "public"
  bases := []
  constraints := []
  source := .made ""
  span := .nowhere
  body := [
    .statement (.made "Init();"),
    .member (.constructor ⟨[], ["public"], "C",
      [⟨[], [], ⟨"int"⟩, "x", none, none, .nowhere⟩], none,
      ⟨[.source (.made "Use(x);")]⟩, .nowhere⟩)]

/-- An instance made by the constructor of the source does without the initializer. -/
theorem initializer_on_every_path_iff_bypassedInitializer :
    0 < bypassedInitializer.initializerLength ∧
      ∃ d', (bypassedInitializer.desugarWith {} false Feature.all).result = .baseline d' ∧
        ¬d'.Initialized (.of {} false bypassedInitializer) [.source (.made "Init();")] := by
  have h : (bypassedInitializer.desugarWith {} false Feature.all).result =
      .baseline (bypassedInitializer.lowered {} false) := rfl
  have hlead : 0 < bypassedInitializer.initializerLength := by decide
  refine ⟨hlead, _, h, fun hinitialized => ?_⟩
  have hsource := ((initializer_on_every_path_iff rfl hlead h).2.1.mp hinitialized).1 _
    (List.mem_singleton_self _) rfl rfl
  obtain ⟨checks, rest, hbody, -⟩ := hsource
  have hmem : Statement.source (.made "Init();") ∈ [Statement.source (.made "Use(x);")] := by
    change [Statement.source (.made "Use(x);")] = _ at hbody
    rw [hbody]
    exact List.mem_append_left _ (List.mem_append_right _ List.mem_cons_self)
  revert hmem
  decide

end ClassSugar
