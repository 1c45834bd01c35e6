import ClassSugar.Source.Slice
import ClassSugar.Tree.Basic

/-!
# Code sliced from a source

Code that a tree keeps is the text of the source at the span of the code. The readers spell it from
their tokens; here it is cut out of the source by its span, for all code of a tree. The two agree as
long as spans are exact (`CompilationUnit.slice?_eq_some`). Where the positions of a source have gone
over the largest word, code may be lost at the end of a text, or there may be no text at a span at
all.

Comments come with a text of their own and are not sliced.
-/

namespace ClassSugar

section Slices

variable (source : String) (base : Nat)

/-- The code with the text of the source at its span. -/
def Verbatim.slice? (v : Verbatim) : Option Verbatim :=
  (v.span.slice? source base).map fun text => { v with text }

/-- The statement with its code sliced. -/
def Statement.slice? : Statement → Option Statement
  | .source code => (code.slice? source base).map .source
  | .ret value => (value.slice? source base).map .ret
  | .expr value => (value.slice? source base).map .expr
  | s => some s

/-- The block with its code sliced. -/
def Block.slice? (b : Block) : Option Block :=
  (b.stmts.mapM (Statement.slice? source base)).map Block.mk

/-- An initializer, if there is one, sliced. -/
def Verbatim.sliceOption? (v : Option Verbatim) : Option (Option Verbatim) :=
  match v with
  | none => some none
  | some v => (v.slice? source base).map some

/-- The body of a property with its code sliced. -/
def PropertyBody.slice? : PropertyBody → Option PropertyBody
  | .auto accessors => some (.auto accessors)
  | .expression value => (value.slice? source base).map .expression
  | .raw code => (code.slice? source base).map .raw

/-- The body of a method with its code sliced. -/
def MethodBody.slice? : MethodBody → Option MethodBody
  | .block body => (body.slice? source base).map .block
  | .expression value => (value.slice? source base).map .expression
  | .absent => some .absent

mutual

/-- The declaration with its code sliced. -/
def Declaration.slice? : Declaration → Option Declaration
  | ⟨header, body⟩ => do
    let code ← header.source.slice? source base
    let items ← BodyItem.sliceAll? body
    some ⟨{ header with source := code }, items⟩

/-- The items of a body with their code sliced. -/
def BodyItem.sliceAll? : List BodyItem → Option (List BodyItem)
  | [] => some []
  | item :: rest => do
    let item ← item.slice?
    let rest ← BodyItem.sliceAll? rest
    some (item :: rest)

/-- The item of a body with its code sliced. -/
def BodyItem.slice? : BodyItem → Option BodyItem
  | .member m => m.slice?.map .member
  | .statement code => (code.slice? source base).map .statement
  | .comment text => some (.comment text)

/-- The member with its code sliced. -/
def Member.slice? : Member → Option Member
  | .field f =>
    (Verbatim.sliceOption? source base f.initializer).map fun initializer =>
      .field { f with initializer }
  | .property p => do
    let body ← p.body.slice? source base
    let initializer ← Verbatim.sliceOption? source base p.initializer
    some (.property { p with body, initializer })
  | .constructor c => (c.body.slice? source base).map fun body => .constructor { c with body }
  | .method m => (m.body.slice? source base).map fun body => .method { m with body }
  | .type d => d.slice?.map .type
  | .raw code => (code.slice? source base).map .raw

end

mutual

/-- Items of a file with their code sliced. -/
def Item.sliceAll? : List Item → Option (List Item)
  | [] => some []
  | item :: rest => do
    let item ← item.slice?
    let rest ← Item.sliceAll? rest
    some (item :: rest)

/-- The item of a file with its code sliced. -/
def Item.slice? : Item → Option Item
  | .directive u => some (.directive u)
  | .scope name fileScoped items => (Item.sliceAll? items).map (.scope name fileScoped)
  | .declaration d => (d.slice? source base).map .declaration
  | .raw code => (code.slice? source base).map .raw
  | .comment text => some (.comment text)

end

/-- The file with its code sliced. -/
def CompilationUnit.slice? (u : CompilationUnit) : Option CompilationUnit :=
  (Item.sliceAll? source base u.items).map CompilationUnit.mk

end Slices

end ClassSugar
