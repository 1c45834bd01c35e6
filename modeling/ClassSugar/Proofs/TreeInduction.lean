import ClassSugar.Desugar.Outcome

/-!
# Induction over trees

A declaration holds others only as types nested in its body, and a list of items holds others only
in namespaces. The two principles here say just that, so that a proof about every declaration or
every file has one step to take and not one for each shape of a member or an item:

* `Declaration.nestedInduction` — from the types nested directly in a declaration to the declaration;
* `Item.listInduction` — from the items of a leading namespace, and from the items that follow the
  first one, to the whole list.

`Declaration.Everywhere` and `Item.Everywhere` follow the same two ways down: a property of single
declarations is carried to all those nested in a tree.

The functions that walk over a body are walks over a list (`desugarNested_eq_map`), and an item that
is no type has nothing to say (`desugarType_of_type?_eq_none`).
-/

namespace ClassSugar

/-- **Induction over nested types.** The recursor of the tree has a motive for bodies, items and
members each; all of them are read here as statements about the types nested in them. -/
theorem Declaration.nestedInduction {P : Declaration → Prop}
    (step : ∀ header body, (∀ n, .member (.type n) ∈ body → P n) → P ⟨header, body⟩)
    (d : Declaration) : P d := by
  refine @Declaration.rec P (fun item => ∀ n, item = .member (.type n) → P n)
    (fun m => ∀ n, m = .type n → P n) (fun body => ∀ n, .member (.type n) ∈ body → P n)
    step ?member nofun nofun nofun nofun nofun nofun ?type nofun nofun ?cons d
  case member =>
    intro m hm n heq
    exact hm n (BodyItem.member.inj heq)
  case type =>
    intro n hn n' heq
    exact Member.type.inj heq ▸ hn
  case cons =>
    intro item rest hitem hrest n hmem
    rcases List.mem_cons.mp hmem with heq | hmem
    · exact hitem n heq.symm
    · exact hrest n hmem

/-- **Induction over items.** The items of a namespace are reached through the first item of a
list. -/
theorem Item.listInduction {P : List Item → Prop} (nil : P [])
    (cons : ∀ item rest, (∀ name fileScoped inner, item = .scope name fileScoped inner → P inner) →
      P rest → P (item :: rest))
    (items : List Item) : P items := by
  refine @Item.rec_1
    (fun item => ∀ name fileScoped inner, item = .scope name fileScoped inner → P inner) P
    nofun ?scope nofun nofun nofun nil cons items
  intro name fileScoped inner hinner name' fileScoped' inner' heq
  injection heq with _ _ heq
  exact heq ▸ hinner

/-- A property holds of a declaration and of all types nested in it. -/
inductive Declaration.Everywhere (P : Declaration → Prop) : Declaration → Prop where
  | intro {d : Declaration} (here : P d)
      (below : ∀ n, .member (.type n) ∈ d.body → n.Everywhere P) : d.Everywhere P

/-- A property holds of all declarations in an item. -/
inductive Item.Everywhere (P : Declaration → Prop) : Item → Prop where
  | declaration {d : Declaration} (h : d.Everywhere P) : Everywhere P (.declaration d)
  | scope {name : String} {fileScoped : Bool} {inner : List Item}
      (h : ∀ item ∈ inner, Everywhere P item) : Everywhere P (.scope name fileScoped inner)
  | directive (u : Using) : Everywhere P (.directive u)
  | raw (code : Verbatim) : Everywhere P (.raw code)
  | comment (text : Verbatim) : Everywhere P (.comment text)

theorem Declaration.everywhere_of_forall {P : Declaration → Prop} (h : ∀ d, P d)
    (d : Declaration) : d.Everywhere P := by
  induction d using Declaration.nestedInduction with
  | step header body ih => exact ⟨h _, ih⟩

theorem Item.everywhere_of_forall {P : Declaration → Prop} (h : ∀ d, P d) (items : List Item) :
    ∀ item ∈ items, item.Everywhere P := by
  induction items using Item.listInduction with
  | nil => nofun
  | cons first rest hinner ih =>
    intro item hitem
    rcases List.mem_cons.mp hitem with rfl | hitem
    · cases item with
      | declaration d => exact .declaration (d.everywhere_of_forall h)
      | scope name fileScoped inner => exact .scope (hinner name fileScoped inner rfl)
      | directive u => exact .directive u
      | raw code => exact .raw code
      | comment text => exact .comment text
    · exact ih item hitem

theorem Declaration.Everywhere.mono {P Q : Declaration → Prop} (hPQ : ∀ d, P d → Q d)
    {d : Declaration} (h : d.Everywhere P) : d.Everywhere Q := by
  induction h with
  | intro here below ih => exact ⟨hPQ _ here, ih⟩

theorem Item.Everywhere.mono {P Q : Declaration → Prop} (hPQ : ∀ d, P d → Q d) {item : Item}
    (h : item.Everywhere P) : item.Everywhere Q := by
  induction h with
  | declaration h => exact .declaration (h.mono hPQ)
  | scope h ih => exact .scope ih
  | directive u => exact .directive u
  | raw code => exact .raw code
  | comment text => exact .comment text

/-! ### Bodies -/

/-- The type nested in a body that an item is. -/
def BodyItem.type? : BodyItem → Option Declaration
  | .member (.type d) => some d
  | _ => none

theorem BodyItem.eq_of_type?_eq_some {item : BodyItem} {d : Declaration}
    (h : item.type? = some d) : item = .member (.type d) := by
  unfold BodyItem.type? at h
  split at h
  · cases h
    rfl
  · cases h

variable (o : Options) (importsSystem : Bool) (rules : List Feature)

theorem BodyItem.desugarNested_eq_map (body : List BodyItem) :
    BodyItem.desugarNested o importsSystem rules body =
      body.map (BodyItem.desugarType o importsSystem rules) := by
  induction body with
  | nil => simp [BodyItem.desugarNested]
  | cons item rest ih => rw [BodyItem.desugarNested, ih, List.map_cons]

@[simp] theorem BodyItem.desugarType_type (d : Declaration) :
    BodyItem.desugarType o importsSystem rules (.member (.type d)) =
      (d.desugarWith o importsSystem rules).map some := by
  rw [BodyItem.desugarType, Member.desugarType]

/-- An item that is no type is passed over in silence. -/
theorem BodyItem.desugarType_of_type?_eq_none {item : BodyItem} (h : item.type? = none) :
    item.desugarType o importsSystem rules = .silent none := by
  match item with
  | .member (.type d) => simp [BodyItem.type?] at h
  | .member (.field _) | .member (.property _) | .member (.constructor _) | .member (.method _)
  | .member (.raw _) => rw [BodyItem.desugarType, Member.desugarType]
  | .statement _ | .comment _ => rw [BodyItem.desugarType]

end ClassSugar
