import ClassSugar.Tree.Basic

/-!
# Questions about the tree

What the rest of the library asks about statements, members and declarations. Two of the answers
carry weight elsewhere: `Declaration.isBaseline`, which says of a whole declaration that it is plain
C#, and `CompilationUnit.declarations`, which lists the declarations of a file in the order in which
reports are made about them, each before those nested in it.
-/

namespace ClassSugar

/-! ### Statements, parameters and members -/

/-- Whether the statement is a comment. -/
def Statement.isComment : Statement → Bool
  | .comment _ => true
  | _ => false

/-- The statements of a block that are not comments. -/
def Block.code (b : Block) : List Statement :=
  b.stmts.filter fun s => !s.isComment

/-- Whether a primary parameter is written like a property: with a capital. -/
def Parameter.isCapitalized (p : Parameter) : Bool :=
  Identifier.isCapitalized p.name

/-- Whether the constructor runs once for the class and not for each instance. -/
def Constructor.isStatic (c : Constructor) : Bool :=
  c.modifiers.contains "static"

/-- Whether only the class itself can call the constructor; that is so unless it says otherwise. -/
def Constructor.isPrivate (c : Constructor) : Bool :=
  !c.modifiers.any fun m => m == "public" || m == "protected" || m == "internal"

/-- Whether the constructor calls another constructor of the class first. -/
def Constructor.chainsToThis (c : Constructor) : Bool :=
  match c.initializer with
  | some call => Text.startsWith call "this"
  | none => false

/-- Whether the value of an expression body is dropped and not returned. -/
def Method.returnsNothing (m : Method) : Bool :=
  m.returnType.isVoid ||
    (m.modifiers.contains "async" &&
      (m.returnType.text == "Task" || m.returnType.text == "ValueTask"))

namespace Member

/-- The name that a member declares; code kept as written declares none. -/
def name? : Member → Option String
  | .field f => some f.name
  | .property p => some p.name
  | .constructor c => some c.name
  | .method m => some m.name
  | .type d => some d.name
  | .raw _ => none

/-- Where the member stands. -/
def span : Member → Span
  | .field f => f.span
  | .property p => p.span
  | .constructor c => c.span
  | .method m => m.span
  | .type d => d.span
  | .raw code => code.span

/-- The parameters of a constructor or a method. -/
def params : Member → List Parameter
  | .constructor c => c.params
  | .method m => m.params
  | _ => []

end Member

namespace BodyItem

/-- The member that the item is. -/
def member? : BodyItem → Option Member
  | .member m => some m
  | _ => none

/-- Whether the item is a member. -/
def isMember : BodyItem → Bool
  | .member _ => true
  | _ => false

/-- Whether the item is a loose statement. -/
def isStatement : BodyItem → Bool
  | .statement _ => true
  | _ => false

/-- The instance constructor that the item is. -/
def instanceConstructor? : BodyItem → Option Constructor
  | .member (.constructor c) => if c.isStatic then none else some c
  | _ => none

end BodyItem

/-! ### Declarations -/

namespace Declaration

/-- The type as code inside the declaration refers to it. -/
def selfType (d : Declaration) : String :=
  d.name ++ d.typeParams.getD ""

/-- The position of the first member in the body, or the length of the body. -/
def firstMemberIndex (d : Declaration) : Nat :=
  d.body.findIdx BodyItem.isMember

/-- The members, in order. -/
def members (d : Declaration) : List Member :=
  d.body.filterMap BodyItem.member?

/-- The instance constructors with their positions in the body. -/
def instanceConstructors (d : Declaration) : List (Nat × Constructor) :=
  d.body.zipIdx.filterMap fun (item, i) => item.instanceConstructor?.map (i, ·)

/-- Whether a member with this name is declared. -/
def declaresMember (d : Declaration) (name : String) : Bool :=
  d.members.any fun m => m.name? == some name

/-- The primary parameters, none if there is no list. -/
def primaryParams (d : Declaration) : List Parameter :=
  d.params.getD []

/-- Whether the header implies a constructor. -/
def hasPrimaryConstructor (d : Declaration) : Bool :=
  d.params.isSome || d.constructorAccess.isSome || d.bases.any fun b => b.args.isSome

/-- The form of the declaration once it is desugared: a record without a parameter list is plain C#,
every other form becomes a class. -/
def loweredKind (d : Declaration) : Kind :=
  match d.kind, d.params with
  | .record, none => .record
  | _, _ => .plain

/-- Whether the header is plain C#. -/
def headerIsBaseline (d : Declaration) : Bool :=
  d.kind == d.loweredKind && !d.singleton && d.params.isNone && d.constructorAccess.isNone &&
    d.bases.all fun b => b.args.isNone

end Declaration

mutual

/-- Whether a declaration is plain C#: its header is, its body has no loose statement, and no
parameter of a member is asserted not to be null, in it and in the types nested in it. -/
def Declaration.isBaseline : Declaration → Bool
  | ⟨header, body⟩ =>
    Declaration.headerIsBaseline ⟨header, body⟩ && BodyItem.areBaseline body

/-- Whether the items of a body are plain C#. -/
def BodyItem.areBaseline : List BodyItem → Bool
  | [] => true
  | item :: rest => item.isBaseline && BodyItem.areBaseline rest

/-- Whether an item of a body is plain C#. -/
def BodyItem.isBaseline : BodyItem → Bool
  | .member m => m.isBaseline
  | .statement _ => false
  | .comment _ => true

/-- Whether a member is plain C#. -/
def Member.isBaseline : Member → Bool
  | .type d => d.isBaseline
  | .field f => (Member.field f).params.all (·.nullAssertion.isNone)
  | .property p => (Member.property p).params.all (·.nullAssertion.isNone)
  | .constructor c => (Member.constructor c).params.all (·.nullAssertion.isNone)
  | .method m => (Member.method m).params.all (·.nullAssertion.isNone)
  | .raw code => (Member.raw code).params.all (·.nullAssertion.isNone)

end

/-! ### All declarations of a file -/

mutual

/-- A declaration and those nested in it, depth first. -/
def Declaration.withNested : Declaration → List Declaration
  | ⟨header, body⟩ => ⟨header, body⟩ :: BodyItem.declarations body

/-- The declarations in the items of a body, depth first. -/
def BodyItem.declarations : List BodyItem → List Declaration
  | [] => []
  | item :: rest => item.nested ++ BodyItem.declarations rest

/-- The declarations in an item of a body, depth first. -/
def BodyItem.nested : BodyItem → List Declaration
  | .member m => m.nested
  | .statement _ => []
  | .comment _ => []

/-- The declarations in a member, depth first. -/
def Member.nested : Member → List Declaration
  | .type d => d.withNested
  | .field _ => []
  | .property _ => []
  | .constructor _ => []
  | .method _ => []
  | .raw _ => []

end

mutual

/-- The declarations in a list of items, depth first. -/
def Item.declarationsOf : List Item → List Declaration
  | [] => []
  | item :: rest => item.declarations ++ Item.declarationsOf rest

/-- The declarations in an item, depth first. -/
def Item.declarations : Item → List Declaration
  | .declaration d => d.withNested
  | .scope _ _ items => Item.declarationsOf items
  | .directive _ => []
  | .raw _ => []
  | .comment _ => []

end

theorem BodyItem.declarations_eq_flatMap (items : List BodyItem) :
    BodyItem.declarations items = items.flatMap BodyItem.nested := by
  induction items with
  | nil => simp only [BodyItem.declarations, List.flatMap_nil]
  | cons item rest ih => rw [BodyItem.declarations, ih, List.flatMap_cons]

theorem Item.declarationsOf_eq_flatMap (items : List Item) :
    Item.declarationsOf items = items.flatMap Item.declarations := by
  induction items with
  | nil => simp only [Item.declarationsOf, List.flatMap_nil]
  | cons item rest ih => rw [Item.declarationsOf, ih, List.flatMap_cons]

namespace CompilationUnit

/-- The declarations of a file, depth first. -/
def declarations (u : CompilationUnit) : List Declaration :=
  Item.declarationsOf u.items

/-- Whether the file imports the namespace `System` as a whole. Directives inside a namespace do not
count. -/
def importsSystem (u : CompilationUnit) : Bool :=
  u.items.any fun item =>
    match item with
    | .directive u => u.target == "System"
    | _ => false

end CompilationUnit

end ClassSugar
