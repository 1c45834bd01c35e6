import ClassSugar.Desugar.Assembly

/-!
# Desugaring

A declaration is desugared together with the types nested in it, each by a plan of its own. One that
is refused keeps its text, and nothing nested in it is looked at; the rest of the file goes on.

The outcome lists what there is to say, and one report for each declaration that was looked at, each
declaration before those nested in it.
-/

namespace ClassSugar

/-! ### Outcomes -/

/-- What happened to a declaration. -/
structure DeclarationReport where
  name : String
  features : FeatureSet
  /-- False if the declaration was left as written. -/
  desugared : Bool
  span : Span
  deriving DecidableEq, Repr, Inhabited

/-- A result with what there is to say about it. -/
structure Outcome (α : Type) where
  result : α
  diagnostics : List Diagnostic
  reports : List DeclarationReport

namespace Outcome

variable {α β : Type}

/-- A result with nothing to say about it. -/
def silent (result : α) : Outcome α :=
  ⟨result, [], []⟩

/-- Another result with the same to say about it. -/
def map (f : α → β) (o : Outcome α) : Outcome β :=
  { o with result := f o.result }

/-- A result made of two, with what there is to say about the first and then the second. -/
def join {γ : Type} (f : α → β → γ) (a : Outcome α) (b : Outcome β) : Outcome γ :=
  ⟨f a.result b.result, a.diagnostics ++ b.diagnostics, a.reports ++ b.reports⟩

/-- Whether something was left as written. -/
def hasErrors (o : Outcome α) : Bool :=
  o.diagnostics.any Diagnostic.isError

end Outcome

/-- A desugared declaration. -/
inductive Desugared where
  /-- A declaration in plain C#. -/
  | baseline (declaration : Declaration)
  /-- The text of a declaration that is left as written. -/
  | unchanged (source : Verbatim)

namespace Desugared

/-- The member that takes the place of a nested declaration. -/
def toMember : Desugared → Member
  | .baseline d => .type d
  | .unchanged source => .raw source

/-- The item that takes the place of a declaration. -/
def toItem : Desugared → Item
  | .baseline d => .declaration d
  | .unchanged source => .raw source

end Desugared

/-! ### Declarations -/

namespace Declaration

/-- The outcome for a declaration that is left as written. -/
def leave (d : Declaration) (features : FeatureSet) (refusal : Refusal) : Outcome Desugared where
  result := .unchanged d.source
  diagnostics := [refusal.toDiagnostic d.name]
  reports := [⟨d.name, features, false, d.span⟩]

/-- The outcome for a declaration that is carried out as planned, with the outcomes for the types
nested in it, one for each item of its body. -/
def carryOut (c : Context) (plan : Plan) (nested : List (Outcome (Option Desugared))) :
    Outcome Desugared where
  result := .baseline (plan.assemble c (nested.map fun o => o.result.map Desugared.toMember))
  diagnostics := c.recognition.diagnostics ++ nested.flatMap Outcome.diagnostics
  reports := ⟨c.declaration.name, c.recognition.features, true, c.declaration.span⟩ ::
    nested.flatMap Outcome.reports

end Declaration

mutual

/-- Desugars a declaration with the given rules. `importsSystem` tells that types of `System` need
no qualification. -/
def Declaration.desugarWith (o : Options) (importsSystem : Bool) (rules : List Feature) :
    Declaration → Outcome Desugared
  | ⟨header, body⟩ =>
    match Declaration.recognize ⟨header, body⟩ o with
    | .error refusal => Declaration.leave ⟨header, body⟩ .empty refusal
    | .ok recognition =>
      match Context.plan ⟨⟨header, body⟩, recognition, o, importsSystem⟩ rules with
      | .error refusal => Declaration.leave ⟨header, body⟩ recognition.features refusal
      | .ok plan =>
        Declaration.carryOut ⟨⟨header, body⟩, recognition, o, importsSystem⟩ plan
          (BodyItem.desugarNested o importsSystem rules body)

/-- Desugars the types among the items of a body. -/
def BodyItem.desugarNested (o : Options) (importsSystem : Bool) (rules : List Feature) :
    List BodyItem → List (Outcome (Option Desugared))
  | [] => []
  | item :: rest =>
    item.desugarType o importsSystem rules :: BodyItem.desugarNested o importsSystem rules rest

/-- Desugars an item of a body if it is a type. -/
def BodyItem.desugarType (o : Options) (importsSystem : Bool) (rules : List Feature) :
    BodyItem → Outcome (Option Desugared)
  | .member m => m.desugarType o importsSystem rules
  | .statement _ => .silent none
  | .comment _ => .silent none

/-- Desugars a member if it is a type. -/
def Member.desugarType (o : Options) (importsSystem : Bool) (rules : List Feature) :
    Member → Outcome (Option Desugared)
  | .type d => (d.desugarWith o importsSystem rules).map some
  | .field _ => .silent none
  | .property _ => .silent none
  | .constructor _ => .silent none
  | .method _ => .silent none
  | .raw _ => .silent none

end

/-- Desugars a declaration of which it is not known where it stands. -/
def Declaration.desugar (o : Options) (d : Declaration) : Outcome Desugared :=
  d.desugarWith o false Feature.all

/-! ### Files -/

mutual

/-- Desugars the declarations in an item. -/
def Item.desugar (o : Options) (importsSystem : Bool) (rules : List Feature) :
    Item → Outcome Item
  | .declaration d => (d.desugarWith o importsSystem rules).map Desugared.toItem
  | .scope name fileScoped items =>
    (Item.desugarAll o importsSystem rules items).map (.scope name fileScoped)
  | .directive u => .silent (.directive u)
  | .raw code => .silent (.raw code)
  | .comment text => .silent (.comment text)

/-- Desugars the declarations in a list of items. -/
def Item.desugarAll (o : Options) (importsSystem : Bool) (rules : List Feature) :
    List Item → Outcome (List Item)
  | [] => .silent []
  | item :: rest =>
    .join List.cons (item.desugar o importsSystem rules)
      (Item.desugarAll o importsSystem rules rest)

end

/-- Desugars the declarations of a file with the given rules. -/
def CompilationUnit.desugarWith (o : Options) (rules : List Feature) (u : CompilationUnit) :
    Outcome CompilationUnit :=
  (Item.desugarAll o u.importsSystem rules u.items).map CompilationUnit.mk

/-- Desugars the declarations of a file. -/
def CompilationUnit.desugar (o : Options) (u : CompilationUnit) : Outcome CompilationUnit :=
  u.desugarWith o Feature.all

end ClassSugar
