import ClassSugar.Grammar.Fragment
import ClassSugar.Grammar.Error
import ClassSugar.Proofs.Shift
import ClassSugar.Proofs.TreeInduction
import ClassSugar.Tree.Basic

/-!
# Trees of a source that stands elsewhere

A tree tells of each part of a file where it stands. The tree of a source that stands some bytes
further on has all spans moved by as much, and nothing else changed: `CompilationUnit.shift` and the
functions it is made of. Columns stay, as the base of a source does not touch its lines.

The parts of a tree that come straight from tokens are texts of runs of tokens. These do not see a
move, except that the span of a run moves with its tokens (`Token.spanOf_shift`). That needs a
token: the span of no tokens stands nowhere and is not moved.
-/

namespace ClassSugar

/-! ### Moved trees -/

/-- The code `k` bytes further on. -/
def Verbatim.shift (k : Nat) (v : Verbatim) : Verbatim :=
  { v with span := v.span.shift k }

/-- The statement `k` bytes further on. -/
def Statement.shift (k : Nat) : Statement → Statement
  | .source code => .source (code.shift k)
  | .comment text => .comment (text.shift k)
  | .assign target value => .assign target value
  | .call callee args => .call callee args
  | .throwIf condition exception args => .throwIf condition exception args
  | .ret value => .ret (value.shift k)
  | .expr value => .expr (value.shift k)

/-- The block `k` bytes further on. -/
def Block.shift (k : Nat) (b : Block) : Block :=
  ⟨b.stmts.map (Statement.shift k)⟩

/-- The parameter `k` bytes further on. -/
def Parameter.shift (k : Nat) (p : Parameter) : Parameter :=
  { p with span := p.span.shift k }

/-- The body of a property `k` bytes further on. -/
def PropertyBody.shift (k : Nat) : PropertyBody → PropertyBody
  | .auto accessors => .auto accessors
  | .expression value => .expression (value.shift k)
  | .raw code => .raw (code.shift k)

/-- The property `k` bytes further on. -/
def Property.shift (k : Nat) (p : Property) : Property :=
  { p with
    body := p.body.shift k
    initializer := p.initializer.map (Verbatim.shift k)
    span := p.span.shift k }

/-- The field `k` bytes further on. -/
def Field.shift (k : Nat) (f : Field) : Field :=
  { f with initializer := f.initializer.map (Verbatim.shift k), span := f.span.shift k }

/-- The constructor `k` bytes further on. -/
def Constructor.shift (k : Nat) (c : Constructor) : Constructor :=
  { c with
    params := c.params.map (Parameter.shift k)
    body := c.body.shift k
    span := c.span.shift k }

/-- The body of a method `k` bytes further on. -/
def MethodBody.shift (k : Nat) : MethodBody → MethodBody
  | .block body => .block (body.shift k)
  | .expression value => .expression (value.shift k)
  | .absent => .absent

/-- The method `k` bytes further on. -/
def Method.shift (k : Nat) (m : Method) : Method :=
  { m with
    params := m.params.map (Parameter.shift k)
    body := m.body.shift k
    span := m.span.shift k }

/-- The header `k` bytes further on. -/
def Header.shift (k : Nat) (h : Header) : Header :=
  { h with
    params := h.params.map (List.map (Parameter.shift k))
    source := h.source.shift k
    span := h.span.shift k }

mutual

/-- The declaration `k` bytes further on. -/
def Declaration.shift (k : Nat) : Declaration → Declaration
  | ⟨header, body⟩ => ⟨header.shift k, BodyItem.shiftAll k body⟩

/-- The items of a body `k` bytes further on. -/
def BodyItem.shiftAll (k : Nat) : List BodyItem → List BodyItem
  | [] => []
  | item :: rest => item.shift k :: BodyItem.shiftAll k rest

/-- The item of a body `k` bytes further on. -/
def BodyItem.shift (k : Nat) : BodyItem → BodyItem
  | .member m => .member (m.shift k)
  | .statement code => .statement (code.shift k)
  | .comment text => .comment (text.shift k)

/-- The member `k` bytes further on. -/
def Member.shift (k : Nat) : Member → Member
  | .field f => .field (f.shift k)
  | .property p => .property (p.shift k)
  | .constructor c => .constructor (c.shift k)
  | .method m => .method (m.shift k)
  | .type d => .type (d.shift k)
  | .raw code => .raw (code.shift k)

end

mutual

/-- Items of a file `k` bytes further on. -/
def Item.shiftAll (k : Nat) : List Item → List Item
  | [] => []
  | item :: rest => item.shift k :: Item.shiftAll k rest

/-- The item of a file `k` bytes further on. -/
def Item.shift (k : Nat) : Item → Item
  | .directive u => .directive u
  | .scope name fileScoped items => .scope name fileScoped (Item.shiftAll k items)
  | .declaration d => .declaration (d.shift k)
  | .raw code => .raw (code.shift k)
  | .comment text => .comment (text.shift k)

end

/-- The file `k` bytes further on. -/
def CompilationUnit.shift (k : Nat) (u : CompilationUnit) : CompilationUnit :=
  ⟨Item.shiftAll k u.items⟩

theorem BodyItem.shiftAll_eq_map (k : Nat) (body : List BodyItem) :
    BodyItem.shiftAll k body = body.map (BodyItem.shift k) := by
  induction body with
  | nil => simp only [BodyItem.shiftAll, List.map_nil]
  | cons item rest ih => rw [BodyItem.shiftAll, ih, List.map_cons]

theorem Item.shiftAll_eq_map (k : Nat) (items : List Item) :
    Item.shiftAll k items = items.map (Item.shift k) := by
  induction items with
  | nil => simp only [Item.shiftAll, List.map_nil]
  | cons item rest ih => rw [Item.shiftAll, ih, List.map_cons]

/-! ### Moved errors -/

/-- The error `k` bytes further on. -/
def SyntaxError.shift (k : Nat) (e : SyntaxError) : SyntaxError :=
  { e with span := e.span.shift k }

/-- The error `k` bytes further on. It is on the same line. -/
def ParseError.shift (k : Nat) : ParseError → ParseError
  | .token e => .token (e.shift k 0)
  | .grammar e => .grammar (e.shift k)

/-! ### One move after the other -/

section Twice

variable (j k : Nat)

theorem Span.shift_shift (s : Span) : (s.shift j).shift k = s.shift (j + k) := by
  rw [Span.shift, Span.shift, Span.shift, Nat.add_assoc, Nat.add_assoc]

theorem Verbatim.shift_shift (v : Verbatim) : (v.shift j).shift k = v.shift (j + k) := by
  simp only [Verbatim.shift, Span.shift_shift]

theorem Verbatim.shift_comp_shift : Verbatim.shift k ∘ Verbatim.shift j = Verbatim.shift (j + k) :=
  funext (Verbatim.shift_shift j k)

theorem Statement.shift_comp_shift :
    Statement.shift k ∘ Statement.shift j = Statement.shift (j + k) := by
  funext s
  cases s <;> simp only [Function.comp_apply, Statement.shift, Verbatim.shift_shift]

theorem Block.shift_shift (b : Block) : (b.shift j).shift k = b.shift (j + k) := by
  simp only [Block.shift, List.map_map, Statement.shift_comp_shift]

theorem Parameter.shift_comp_shift :
    Parameter.shift k ∘ Parameter.shift j = Parameter.shift (j + k) := by
  funext p
  simp only [Function.comp_apply, Parameter.shift, Span.shift_shift]

theorem PropertyBody.shift_shift (b : PropertyBody) : (b.shift j).shift k = b.shift (j + k) := by
  cases b <;> simp only [PropertyBody.shift, Verbatim.shift_shift]

theorem MethodBody.shift_shift (b : MethodBody) : (b.shift j).shift k = b.shift (j + k) := by
  cases b <;> simp only [MethodBody.shift, Block.shift_shift, Verbatim.shift_shift]

theorem Header.shift_shift (h : Header) : (h.shift j).shift k = h.shift (j + k) := by
  simp only [Header.shift, Option.map_map, List.map_comp_map, Parameter.shift_comp_shift,
    Verbatim.shift_shift, Span.shift_shift]

theorem Member.shift_shift_of {m : Member}
    (h : ∀ d, m = .type d → (d.shift j).shift k = d.shift (j + k)) :
    (m.shift j).shift k = m.shift (j + k) := by
  cases m with
  | field f =>
    simp only [Member.shift, Field.shift, Option.map_map, Verbatim.shift_comp_shift,
      Span.shift_shift]
  | property p =>
    simp only [Member.shift, Property.shift, PropertyBody.shift_shift, Option.map_map,
      Verbatim.shift_comp_shift, Span.shift_shift]
  | constructor c =>
    simp only [Member.shift, Constructor.shift, List.map_map, Parameter.shift_comp_shift,
      Block.shift_shift, Span.shift_shift]
  | method m =>
    simp only [Member.shift, Method.shift, List.map_map, Parameter.shift_comp_shift,
      MethodBody.shift_shift, Span.shift_shift]
  | type d => rw [Member.shift, Member.shift, Member.shift, h d rfl]
  | raw code => rw [Member.shift, Member.shift, Member.shift, Verbatim.shift_shift]

theorem Declaration.shift_shift (d : Declaration) : (d.shift j).shift k = d.shift (j + k) := by
  induction d using Declaration.nestedInduction with
  | step header body ih =>
    simp only [Declaration.shift, Header.shift_shift, BodyItem.shiftAll_eq_map, List.map_map]
    congr 1
    apply List.map_congr_left
    intro item hitem
    rw [Function.comp_apply]
    cases item with
    | member m =>
      have hm : (m.shift j).shift k = m.shift (j + k) :=
        Member.shift_shift_of j k fun n heq => ih n (heq ▸ hitem)
      rw [BodyItem.shift, BodyItem.shift, BodyItem.shift, hm]
    | statement code | comment text =>
      rw [BodyItem.shift, BodyItem.shift, BodyItem.shift, Verbatim.shift_shift]

theorem Item.shiftAll_shiftAll (items : List Item) :
    Item.shiftAll k (Item.shiftAll j items) = Item.shiftAll (j + k) items := by
  induction items using Item.listInduction with
  | nil => rfl
  | cons item rest hinner ih =>
    rw [Item.shiftAll, Item.shiftAll, Item.shiftAll, ih]
    congr 1
    cases item with
    | directive u => rfl
    | scope name fileScoped inner =>
      rw [Item.shift, Item.shift, Item.shift, hinner name fileScoped inner rfl]
    | declaration d => rw [Item.shift, Item.shift, Item.shift, Declaration.shift_shift]
    | raw code | comment text => rw [Item.shift, Item.shift, Item.shift, Verbatim.shift_shift]

theorem CompilationUnit.shift_shift (u : CompilationUnit) :
    (u.shift j).shift k = u.shift (j + k) := by
  rw [CompilationUnit.shift, CompilationUnit.shift, CompilationUnit.shift, Item.shiftAll_shiftAll]

theorem ParseError.shift_shift (e : ParseError) : (e.shift j).shift k = e.shift (j + k) := by
  cases e with
  | token e => cases e <;> simp only [ParseError.shift, Token.Error.shift, Span.shift_shift]
  | grammar e => simp only [ParseError.shift, SyntaxError.shift, Span.shift_shift]

end Twice

/-! ### Moved runs of tokens -/

namespace Token

variable (k : Nat)

theorem joinAfter_shift (t : Token) (ts : List Token) :
    joinAfter (t.shift k 0) (ts.map (Token.shift k 0)) = joinAfter t ts := by
  induction ts generalizing t with
  | nil => rfl
  | cons u ts ih =>
    rw [List.map_cons, joinAfter, joinAfter, ih]
    rfl

@[simp] theorem join_shift (ts : List Token) : join (ts.map (Token.shift k 0)) = join ts := by
  cases ts with
  | nil => rfl
  | cons t ts =>
    rw [List.map_cons, join, join, joinAfter_shift]
    rfl

@[simp] theorem spell_shift (ts : List Token) : spell (ts.map (Token.shift k 0)) = spell ts := by
  cases ts with
  | nil => rfl
  | cons t ts =>
    rw [List.map_cons, spell, spell, List.map_map]
    rfl

@[simp] theorem map_text_shift (ts : List Token) :
    (ts.map (Token.shift k 0)).map Token.text = ts.map Token.text := by
  rw [List.map_map]
  rfl

/-- **The span of a run moves with its tokens.** -/
theorem spanOf_shift {ts : List Token} (h : ts ≠ []) :
    spanOf (ts.map (Token.shift k 0)) = (spanOf ts).shift k := by
  rw [spanOf, spanOf, List.head?_map, List.getLast?_map, List.head?_eq_some_head h,
    List.getLast?_eq_some_getLast h]
  rfl

end Token

theorem Verbatim.ofTokens_shift (k : Nat) {ts : List Token} (h : ts ≠ []) :
    Verbatim.ofTokens (ts.map (Token.shift k 0)) = (Verbatim.ofTokens ts).shift k := by
  rw [Verbatim.ofTokens, Token.spell_shift, Token.spanOf_shift k h, List.head?_map, Option.map_map,
    List.flatMap_map]
  rfl

theorem Verbatim.ofComment_shift (k : Nat) (c : Comment) :
    Verbatim.ofComment (c.shift k) = (Verbatim.ofComment c).shift k := rfl

end ClassSugar
