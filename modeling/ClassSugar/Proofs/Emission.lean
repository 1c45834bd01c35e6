import ClassSugar.Page.Emit
import ClassSugar.Proofs.Settled
import ClassSugar.Proofs.SteadyUnit

/-!
# What is desugared can be written

The writer refuses a tree exactly if some declaration in it, at whatever depth, still uses an
extension (`Emit.declaration_isOk_iff`). This module shows that it never refuses what desugaring
leaves of a file, whichever extensions are switched off and whichever declarations are refused.

A lowered declaration is settled, and of the six constructs only the null marker may be left in a
settled one, if null assertions are not understood. But then none was read
(`CompilationUnit.parse_markFree`), and none is made. A declaration that is not lowered is no
declaration any more, but a text.
-/

namespace ClassSugar

/-! ### Plain declarations -/

/-- Nothing in a declaration is in the way of writing it, nested types aside. -/
def Declaration.IsPlain (d : Declaration) : Prop :=
  d.construct? = none

/-- A settled declaration is plain if no parameter in it is asserted not to be null. -/
theorem Declaration.isPlain_of_settled {o : Options} {d : Declaration} (h : d.Settled o)
    (hmarks : d.MarkFree) : d.IsPlain := by
  have hkind : d.kind ≠ .data := h.kind ▸ d.loweredKind_ne_data
  have hbases : (d.bases.any fun b => b.args.isSome) = false := by
    rw [List.any_eq_false]
    intro b hb
    simp [h.bases b hb]
  have hparams : ((d.members.flatMap Member.params).any (·.nullAssertion.isSome)) = false := by
    rw [List.any_eq_false]
    intro p hp
    obtain ⟨m, hm, hp⟩ := List.mem_flatMap.mp hp
    simp [hmarks.members m hm p hp]
  unfold IsPlain construct?
  rw [if_neg hkind, h.singleton, h.params, h.constructorAccess, hbases, hparams]
  rfl

section Lowered

variable {o : Options} {importsSystem : Bool}

/-- Assertions are taken out if they are understood, and none is made. -/
theorem Declaration.markFree_lowered {d : Declaration}
    (h : o.extensions.nullAssertion = true ∨ d.MarkFree) :
    (d.lowered o importsSystem).MarkFree := by
  rcases h with hon | hmarks
  · exact d.settled_lowered.assertions hon
  · refine Plan.assemble_markFree _ _ (fun m hm => ?_) (.inr hmarks)
    obtain ⟨item, -, hitem⟩ := List.mem_map.mp hm
    exact BodyItem.params_of_replacement? hitem

/-- **What desugaring leaves of a file is plain everywhere**, if null assertions are understood or
there are none in it. -/
theorem Item.isPlain_desugarAll (items : List Item)
    (h : o.extensions.nullAssertion = true ∨
      ∀ item ∈ items, item.Everywhere Declaration.MarkFree) :
    ∀ item ∈ (Item.desugarAll o importsSystem Feature.all items).result,
      item.Everywhere Declaration.IsPlain := by
  rcases h with hon | hmarks
  · have hstep : ∀ d : Declaration, True → (d.lowered o importsSystem).IsPlain := fun d _ =>
      Declaration.isPlain_of_settled d.settled_lowered (Declaration.markFree_lowered (.inl hon))
    exact Item.everywhere_desugarAll hstep items (Item.everywhere_of_forall (fun _ => trivial) items)
  · have hstep : ∀ d : Declaration, d.MarkFree → (d.lowered o importsSystem).IsPlain := fun d hd =>
      Declaration.isPlain_of_settled d.settled_lowered (Declaration.markFree_lowered (.inr hd))
    exact Item.everywhere_desugarAll hstep items hmarks

end Lowered

/-! ### The writer -/

namespace Emit

/-- What is written for a declaration. -/
theorem declaration_eq_ok_iff {d : Declaration} {rows : List Row} :
    declaration d = .ok rows ↔
      d.IsPlain ∧ ∃ inner, bodyItems true d.body = .ok inner ∧ header d ++ braced inner = rows := by
  obtain ⟨h, body⟩ := d
  unfold Declaration.IsPlain
  rw [declaration]
  cases Declaration.construct? ⟨h, body⟩ with
  | some construct => simp
  | none => cases bodyItems true body <;> simp

/-- What is written for the items of a body: the first item, and then the others. -/
theorem bodyItems_cons_eq_ok_iff {attached : Bool} {item : BodyItem} {rest : List BodyItem}
    {rows : List Row} :
    bodyItems attached (item :: rest) = .ok rows ↔ ∃ first more, bodyItem item = .ok first ∧
      bodyItems (attaches item) rest = .ok more ∧
        (if attached then [] else [.gap]) ++ first ++ more = rows := by
  rw [bodyItems]
  cases bodyItem item with
  | error e => simp
  | ok first => cases bodyItems (attaches item) rest <;> simp

/-- What is written for the items of a file. -/
theorem items_cons_eq_ok_iff {previous : Option Item} {next : Item} {rest : List Item}
    {rows : List Row} :
    items previous (next :: rest) = .ok rows ↔ ∃ first more, item next = .ok first ∧
      items (some next) rest = .ok more ∧
        (if previous.any (separated · next) then [.gap] else []) ++ first ++ more = rows := by
  rw [items]
  cases item next with
  | error e => simp
  | ok first => cases items (some next) rest <;> simp

/-- The rows of a namespace around those of its items. -/
def scopeRows (name : String) (fileScoped isEmpty : Bool) (inner : List Row) : List Row :=
  if fileScoped then
    Row.text ("namespace " ++ name ++ ";") ++ (if isEmpty then [] else [.gap]) ++ inner
  else
    Row.text ("namespace " ++ name) ++ braced inner

theorem item_scope_eq_ok_iff {name : String} {fileScoped : Bool} {inner : List Item}
    {rows : List Row} :
    item (.scope name fileScoped inner) = .ok rows ↔ ∃ innerRows, items none inner = .ok innerRows ∧
      scopeRows name fileScoped inner.isEmpty innerRows = rows := by
  rw [item]
  cases items none inner with
  | error e => simp
  | ok innerRows => cases fileScoped <;> simp [scopeRows]

/-- The items of a body are written exactly if each of them is. -/
theorem bodyItems_isOk_iff (attached : Bool) (body : List BodyItem) :
    (∃ rows, bodyItems attached body = .ok rows) ↔
      ∀ item ∈ body, ∃ rows, bodyItem item = .ok rows := by
  induction body generalizing attached with
  | nil => simp [bodyItems]
  | cons item rest ih =>
    rw [List.forall_mem_cons, ← ih (attaches item)]
    simp only [bodyItems_cons_eq_ok_iff]
    constructor
    · rintro ⟨rows, first, more, hfirst, hmore, -⟩
      exact ⟨⟨first, hfirst⟩, ⟨more, hmore⟩⟩
    · rintro ⟨⟨first, hfirst⟩, ⟨more, hmore⟩⟩
      exact ⟨_, first, more, hfirst, hmore, rfl⟩

/-- Of the items of a body only types can be refused. -/
theorem bodyItem_isOk_iff (item : BodyItem) :
    (∃ rows, bodyItem item = .ok rows) ↔
      ∀ n, item = .member (.type n) → ∃ rows, declaration n = .ok rows := by
  match item with
  | .member (.type n) => simp [bodyItem, member]
  | .member (.field _) | .member (.property _) | .member (.constructor _) | .member (.method _)
  | .member (.raw _) => simp [bodyItem, member]
  | .statement _ | .comment _ => simp [bodyItem]

/-- **The writer accepts exactly the plain declarations.** -/
theorem declaration_isOk_iff (d : Declaration) :
    (∃ rows, declaration d = .ok rows) ↔ d.Everywhere Declaration.IsPlain := by
  induction d using Declaration.nestedInduction with
  | step header body ih =>
    have hbody : (∃ rows, bodyItems true body = .ok rows) ↔
        ∀ n, .member (.type n) ∈ body → n.Everywhere Declaration.IsPlain := by
      rw [bodyItems_isOk_iff]
      simp only [bodyItem_isOk_iff]
      constructor
      · exact fun h n hn => (ih n hn).mp (h _ hn n rfl)
      · rintro h item hitem n rfl
        exact (ih n hitem).mpr (h n hitem)
    constructor
    · rintro ⟨rows, hrows⟩
      obtain ⟨hplain, inner, hinner, -⟩ := declaration_eq_ok_iff.mp hrows
      exact ⟨hplain, hbody.mp ⟨inner, hinner⟩⟩
    · rintro ⟨hplain, hbelow⟩
      obtain ⟨inner, hinner⟩ := hbody.mpr hbelow
      exact ⟨_, declaration_eq_ok_iff.mpr ⟨hplain, inner, hinner, rfl⟩⟩

/-- **Plain items are written.** -/
theorem items_isOk (previous : Option Item) (all : List Item)
    (h : ∀ item ∈ all, item.Everywhere Declaration.IsPlain) :
    ∃ rows, items previous all = .ok rows := by
  induction all using Item.listInduction generalizing previous with
  | nil => exact ⟨[], by rw [items]⟩
  | cons first rest hinner ih =>
    obtain ⟨more, hmore⟩ := ih (some first) fun item hitem => h item (List.mem_cons_of_mem _ hitem)
    have hfirst : ∃ rows, item first = .ok rows := by
      cases h first List.mem_cons_self with
      | declaration hd =>
        rw [item]
        exact (declaration_isOk_iff _).mpr hd
      | @scope name fileScoped inner hscope =>
        obtain ⟨rows, hrows⟩ := hinner name fileScoped inner rfl none hscope
        exact ⟨_, item_scope_eq_ok_iff.mpr ⟨rows, hrows, rfl⟩⟩
      | directive u => exact ⟨_, by rw [item]⟩
      | raw code => exact ⟨_, by rw [item]⟩
      | comment text => exact ⟨_, by rw [item]⟩
    obtain ⟨rows, hrows⟩ := hfirst
    exact ⟨_, items_cons_eq_ok_iff.mpr ⟨rows, more, hrows, hmore, rfl⟩⟩

end Emit

/-- **What is read and desugared is written.** Whatever the text, the options and the layout: if the
text is read with the extensions of the options, then the outcome of desugaring is never refused. -/
theorem desugared_file_is_written {o : Options} {source : String} {base : Nat}
    {u : CompilationUnit} (layout : Layout)
    (h : CompilationUnit.parse o.extensions source base = .ok u) :
    ∃ text, (u.desugar o).result.emit layout = .ok text := by
  have hmarks : o.extensions.nullAssertion = true ∨
      ∀ item ∈ u.items, item.Everywhere Declaration.MarkFree := by
    cases hon : o.extensions.nullAssertion with
    | true => exact .inl rfl
    | false => exact .inr (CompilationUnit.parse_markFree hon h)
  obtain ⟨rows, hrows⟩ := Emit.items_isOk none _
    (@Item.isPlain_desugarAll o u.importsSystem u.items hmarks)
  refine ⟨Row.render layout rows, ?_⟩
  unfold CompilationUnit.emit
  exact congrArg (Except.map (Row.render layout)) hrows

/-- A class with a parameter that would be asserted, base arguments, and a nested singleton that is
refused for its access clause. -/
def refusedInside : String :=
  "class A([ThrowArgumentNullException] string S) : B(S) \x7b singleton class C : public() \x7b \x7d \x7d"

theorem desugared_file_is_written_refusedInside :
    ∃ u text, CompilationUnit.parse { nullAssertion := false } refusedInside 1 = .ok u ∧
      (u.desugar { extensions := { nullAssertion := false } }).result.emit {} = .ok text := by
  have hread : (CompilationUnit.parse { nullAssertion := false } refusedInside 1).isOk = true := by
    decide +kernel
  cases hparse : CompilationUnit.parse { nullAssertion := false } refusedInside 1 with
  | error e =>
    rw [hparse] at hread
    cases hread
  | ok u =>
    obtain ⟨text, htext⟩ := desugared_file_is_written
      (o := { extensions := { nullAssertion := false } }) {} hparse
    exact ⟨u, text, rfl, htext⟩

end ClassSugar
