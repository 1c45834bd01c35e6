import ClassSugar.Grammar.Declaration
import ClassSugar.Tree.Query

/-!
# How a tree lies on its source

A tree says what a source means, and not where each of its tokens went. This module says that: which
of the tokens and comments of a source a tree lies on, and what it does with each of them.

Tokens and comments in the order of the source are *leaves* (`Leaf`). A list of statements, of items
of a body or of items of a file lies on a list of leaves (`Lies`) as follows:

* a comment between two items is an item of its own, and so are comments before a closing brace;
* a lone semicolon between two items leaves no trace;
* a statement, or an item of no special shape, is kept with all that stands between its tokens;
* everything else is a *head* (`Head`) with or without something in braces after it. The tokens of a
  head are named one by one: some make a text that the tree keeps as it was written, some make a
  name or a type that is written anew, and the others are keywords and brackets.

What stands in braces is laid out in turn. A head whose braces hold more items has no brace of its
own outside of the texts that are kept from it, so the brace that opens the body is the first one.

The comments in a head have no place in the tree unless they stand inside of a text that is kept.
`Lies` lists the others.
-/

namespace ClassSugar

/-! ### What a tree keeps of a source -/

/-- A part of a source that a tree keeps. -/
inductive Kept where
  /-- A comment or directive that is an item of its own. -/
  | comment (text : Verbatim)
  /-- Code as it was written. -/
  | code (v : Verbatim)
  /-- A text as it was written, without the place where it stood. -/
  | text (s : String)
  /-- Tokens written anew, with normal spacing. -/
  | joined (s : String)
  deriving DecidableEq

/-- What a parameter keeps, in the order of the source. -/
def Parameter.kept (p : Parameter) : List Kept :=
  p.attributes.map .text ++ .joined p.ty.text :: p.defaultValue.toList.map .text

/-- What a statement keeps. -/
def Statement.kept : Statement → List Kept
  | .source code => [.code code]
  | .comment text => [.comment text]
  | .ret value => [.code value]
  | .expr value => [.code value]
  | _ => []

/-- What the body of a property keeps. -/
def PropertyBody.kept : PropertyBody → List Kept
  | .auto _ => []
  | .expression value => [.code value]
  | .raw code => [.code code]

/-- What a constructor keeps before its body. -/
def Constructor.headKept (c : Constructor) : List Kept :=
  c.attributes.map .text ++ c.params.flatMap Parameter.kept ++ c.initializer.toList.map .text

/-- What a method keeps before its body. -/
def Method.headKept (m : Method) : List Kept :=
  m.attributes.map .text ++ [.joined m.returnType.text, .joined m.name] ++
    m.typeParams.toList.map .joined ++ m.params.flatMap Parameter.kept ++
    m.constraints.map .joined

/-- What a member keeps in its head, and the statements in the braces after it. A type is none of
this: it is a declaration of its own. -/
def Member.parts : Member → Option (List Kept × Option (List Statement))
  | .field f =>
    some (f.attributes.map .text ++ [.joined f.ty.text, .joined f.name] ++
      f.initializer.toList.map .code, none)
  | .property p =>
    some (p.attributes.map .text ++ [.joined p.ty.text, .joined p.name] ++ p.body.kept ++
      p.initializer.toList.map .code, none)
  | .constructor c =>
    match c.body.stmts with
    | [.expr value] => some (c.headKept ++ [.code value], none)
    | stmts => some (c.headKept, some stmts)
  | .method m =>
    match m.body with
    | .block body => some (m.headKept, some body.stmts)
    | .expression value => some (m.headKept ++ [.code value], none)
    | .absent => some (m.headKept, none)
  | .type _ => none
  | .raw code => some ([.code code], none)

/-- What a member keeps, a nested type apart. -/
def Member.kept (m : Member) : List Kept :=
  match m.parts with
  | some (kept, stmts) => kept ++ (stmts.getD []).flatMap Statement.kept
  | none => []

/-- What an item of a body keeps, those of a nested type apart. -/
def BodyItem.kept : BodyItem → List Kept
  | .member m => m.kept
  | .statement code => [.code code]
  | .comment text => [.comment text]

/-- What an entry of a base list keeps. -/
def BaseEntry.kept (e : BaseEntry) : List Kept :=
  .joined e.name :: e.args.toList.map .text

/-- What a declaration keeps before its body. -/
def Header.kept (h : Header) : List Kept :=
  h.attributes.map .text ++ h.typeParams.toList.map .joined ++
    (h.params.getD []).flatMap Parameter.kept ++ h.bases.flatMap BaseEntry.kept ++
    h.constraints.map .joined

/-- What a declaration keeps, the types nested in it apart. -/
def Declaration.kept (d : Declaration) : List Kept :=
  d.toHeader.kept ++ d.body.flatMap BodyItem.kept

mutual

/-- What a list of items keeps outside of declarations. -/
def Item.keptOf : List Item → List Kept
  | [] => []
  | item :: rest => item.kept ++ Item.keptOf rest

/-- What an item keeps outside of declarations. -/
def Item.kept : Item → List Kept
  | .directive _ => []
  | .scope _ _ items => Item.keptOf items
  | .declaration _ => []
  | .raw code => [.code code]
  | .comment text => [.comment text]

end

theorem Item.keptOf_eq_flatMap (items : List Item) :
    Item.keptOf items = items.flatMap Item.kept := by
  induction items with
  | nil => simp only [Item.keptOf, List.flatMap_nil]
  | cons item rest ih => rw [Item.keptOf, ih, List.flatMap_cons]

/-- A file keeps something, in a declaration or outside of all of them. -/
def CompilationUnit.Keeps (u : CompilationUnit) (kept : Kept) : Prop :=
  kept ∈ Item.keptOf u.items ∨ ∃ d ∈ u.declarations, kept ∈ d.kept

/-! ### Leaves -/

/-- A token without the comments before it. -/
def Token.bare (t : Token) : Token :=
  { t with leading := [] }

/-- What a source consists of, blanks apart. -/
inductive Leaf where
  | comment (k : Comment)
  | token (t : Token)

/-- The token that a leaf is. -/
def Leaf.token? : Leaf → Option Token
  | .token t => some t
  | .comment _ => none

/-- A token and the comments before it as leaves. -/
def Token.leaves (t : Token) : List Leaf :=
  t.leading.map .comment ++ [.token t.bare]

/-- Tokens and the comments before them as leaves. -/
def Leaf.ofTokens (ts : List Token) : List Leaf :=
  ts.flatMap Token.leaves

/-- The tokens among leaves. -/
def Leaf.tokens (xs : List Leaf) : List Token :=
  xs.filterMap Leaf.token?

/-! ### Heads -/

/-- The comments before the first of some tokens. -/
def Token.commentsBefore (ts : List Token) : List Comment :=
  (ts.head?.map Token.leading).getD []

/-- The run is not empty, and there is no comment before it. -/
def Token.StartsBare (run : List Token) : Prop :=
  run ≠ [] ∧ Token.commentsBefore run = []

/-- A run of tokens is a head that keeps `kept`. Tokens that are neither kept nor written anew pass
the test. The comments listed are those that stand in no text that is kept. -/
inductive Head (test : Token → Bool) : List Token → List Kept → List Comment → Prop where
  | nil : Head test [] [] []
  /-- A keyword, a name or a bracket. -/
  | mark {t : Token} {run : List Token} {kept : List Kept} {lost : List Comment}
      (ht : test t = true) (h : Head test run kept lost) :
      Head test (t :: run) kept (t.leading ++ lost)
  /-- Tokens that the tree writes anew. -/
  | joined (rs : List Token) {run : List Token} {kept : List Kept} {lost : List Comment}
      (h : Head test run kept lost) :
      Head test (rs ++ run) (.joined (Token.join rs) :: kept) (rs.flatMap Token.leading ++ lost)
  /-- Code that the tree keeps. -/
  | code {rs : List Token} {run : List Token} {kept : List Kept} {lost : List Comment}
      (hrs : rs ≠ []) (h : Head test run kept lost) :
      Head test (rs ++ run) (.code (Verbatim.ofTokens rs) :: kept)
        (Token.commentsBefore rs ++ lost)
  /-- A text that the tree keeps. -/
  | text (rs : List Token) {run : List Token} {kept : List Kept} {lost : List Comment}
      (h : Head test run kept lost) :
      Head test (rs ++ run) (.text (Token.spell rs) :: kept) (Token.commentsBefore rs ++ lost)
  /-- The arguments of another constructor, kept with its keyword. -/
  | arguments (rs : List Token) {keyword : String} {run : List Token} {kept : List Kept}
      {lost : List Comment} (hkeyword : keyword = "base" ∨ keyword = "this")
      (h : Head test run kept lost) :
      Head test (rs ++ run) (.text (keyword ++ "(" ++ Token.spell rs ++ ")") :: kept)
        (Token.commentsBefore rs ++ lost)
  /-- An attribute that is read as a null assertion. -/
  | assertion {rs : List Token} {run : List Token} {kept : List Kept} {lost : List Comment}
      (hrs : Grammar.isNullAssertion (Token.spell rs) = true) (h : Head test run kept lost) :
      Head test (rs ++ run) kept (rs.flatMap Token.leading ++ lost)

namespace Head

variable {test : Token → Bool} {run run' : List Token} {kept kept' : List Kept}
  {lost lost' : List Comment}

/-- A head may be read in two parts. -/
theorem append (h : Head test run kept lost) (h' : Head test run' kept' lost') :
    Head test (run ++ run') (kept ++ kept') (lost ++ lost') := by
  induction h with
  | nil => exact h'
  | mark ht h ih => simpa only [List.append_assoc, List.cons_append] using ih.mark ht
  | joined rs h ih => simpa only [List.append_assoc, List.cons_append] using ih.joined rs
  | code hrs h ih => simpa only [List.append_assoc, List.cons_append] using ih.code hrs
  | text rs h ih => simpa only [List.append_assoc, List.cons_append] using ih.text rs
  | arguments rs hkeyword h ih =>
    simpa only [List.append_assoc, List.cons_append] using ih.arguments rs hkeyword
  | assertion hrs h ih => simpa only [List.append_assoc] using ih.assertion hrs

/-- More tokens may be allowed. -/
theorem mono {test' : Token → Bool} (htest : ∀ t, test t = true → test' t = true)
    (h : Head test run kept lost) : Head test' run kept lost := by
  induction h with
  | nil => exact .nil
  | mark ht h ih => exact ih.mark (htest _ ht)
  | joined rs h ih => exact ih.joined rs
  | code hrs h ih => exact ih.code hrs
  | text rs h ih => exact ih.text rs
  | arguments rs hkeyword h ih => exact ih.arguments rs hkeyword
  | assertion hrs h ih => exact ih.assertion hrs

/-- Keywords and brackets only. -/
theorem marks (h : ∀ t ∈ run, test t = true) : Head test run [] (run.flatMap Token.leading) := by
  induction run with
  | nil => exact .nil
  | cons t run ih =>
    obtain ⟨ht, hrun⟩ := List.forall_mem_cons.mp h
    exact (ih hrun).mark ht

end Head

/-- The operators and brackets of heads. An opening brace is none of them. -/
def Token.headMarks : List String :=
  ["(", ")", "[", "]", "\x7d", ",", ";", ":", "=", "=>", "!"]

/-- Whether a token can stand in a head outside of the texts that are kept from it. -/
def Token.isHeadMark (t : Token) : Bool :=
  t.ident?.isSome || Token.headMarks.any t.isPunct

/-- Whether a token can stand so in a member with nothing in braces but accessors. -/
def Token.isMemberMark (t : Token) : Bool :=
  t.isHeadMark || t.isPunct "\x7b"

/-- Whether a token is one of a `using` directive. -/
def Token.isUsingMark (t : Token) : Bool :=
  t.isIdent "global" || t.isIdent "using" || t.isPunct ";"

/-- Whether a token is one of the head of a namespace. -/
def Token.isNamespaceMark (t : Token) : Bool :=
  t.isIdent "namespace" || t.isPunct ";"

/-! ### Layouts -/

/-- A statement, an item of a body or an item of a file. -/
inductive Node where
  | statement (s : Statement)
  | item (item : BodyItem)
  | top (item : Item)

namespace Node

/-- The comment that a node is. -/
def comment? : Node → Option Verbatim
  | .statement (.comment text) => some text
  | .item (.comment text) => some text
  | .top (.comment text) => some text
  | _ => none

/-- The code as it was written that a node is. -/
def code? : Node → Option Verbatim
  | .statement (.source code) => some code
  | .item (.statement code) => some code
  | .item (.member (.raw code)) => some code
  | .top (.raw code) => some code
  | _ => none

/-- The declaration that a node is. -/
def declaration? : Node → Option Declaration
  | .item (.member (.type d)) => some d
  | .top (.declaration d) => some d
  | _ => none

/-- What a node keeps, declarations apart. -/
def kept : Node → List Kept
  | .statement s => s.kept
  | .item i => i.kept
  | .top i => i.kept

/-- The declarations in a node, depth first. -/
def declarations : Node → List Declaration
  | .statement _ => []
  | .item i => i.nested
  | .top i => i.declarations

/-- One of the nodes keeps something, or a declaration in them does. -/
def Keeps (ns : List Node) (k : Kept) : Prop :=
  k ∈ ns.flatMap kept ∨ ∃ d ∈ ns.flatMap declarations, k ∈ d.kept

variable {n : Node} {ns : List Node} {k : Kept}

theorem not_keeps_nil : ¬Keeps [] k := by
  rintro (hk | ⟨d, hd, -⟩)
  · cases hk
  · cases hd

theorem keeps_cons : Keeps (n :: ns) k ↔ Keeps [n] k ∨ Keeps ns k := by
  simp only [Keeps, List.flatMap_cons, List.flatMap_nil, List.append_nil, List.mem_append,
    or_and_right, exists_or]
  exact or_or_or_comm

theorem keeps_singleton : Keeps [n] k ↔ k ∈ n.kept ∨ ∃ d ∈ n.declarations, k ∈ d.kept := by
  simp only [Keeps, List.flatMap_singleton]

/-- A node that has no declaration in it. -/
theorem keeps_of_declarations_eq_nil (h : n.declarations = []) : Keeps [n] k ↔ k ∈ n.kept := by
  rw [keeps_singleton, h]
  simp

theorem of_comment? {text : Verbatim} (hn : n.comment? = some text) :
    n.kept = [.comment text] ∧ n.declarations = [] := by
  unfold comment? at hn
  split at hn
  · cases hn
    exact ⟨rfl, rfl⟩
  · cases hn
    rw [kept, BodyItem.kept, declarations, BodyItem.nested]
    exact ⟨rfl, rfl⟩
  · cases hn
    rw [kept, Item.kept, declarations, Item.declarations]
    exact ⟨rfl, rfl⟩
  · cases hn

theorem of_code? {code : Verbatim} (hn : n.code? = some code) :
    n.kept = [.code code] ∧ n.declarations = [] := by
  unfold code? at hn
  split at hn
  · cases hn
    exact ⟨rfl, rfl⟩
  · cases hn
    rw [kept, BodyItem.kept, declarations, BodyItem.nested]
    exact ⟨rfl, rfl⟩
  · cases hn
    rw [declarations, BodyItem.nested, Member.nested]
    exact ⟨rfl, rfl⟩
  · cases hn
    rw [kept, Item.kept, declarations, Item.declarations]
    exact ⟨rfl, rfl⟩
  · cases hn

theorem of_parts {m : Member} {kept : List Kept} {stmts : Option (List Statement)}
    (hm : m.parts = some (kept, stmts)) :
    (Node.item (.member m)).kept = kept ++ (stmts.getD []).flatMap Statement.kept ∧
      (Node.item (.member m)).declarations = [] := by
  rw [Node.kept, BodyItem.kept, Member.kept, hm, declarations, BodyItem.nested]
  refine ⟨rfl, ?_⟩
  cases m with
  | type d => cases hm
  | _ => rw [Member.nested]

theorem of_declaration? {d : Declaration} (hn : n.declaration? = some d) :
    n.kept = [] ∧ n.declarations = d :: BodyItem.declarations d.body := by
  obtain ⟨header, body⟩ := d
  rw [← Declaration.withNested]
  unfold declaration? at hn
  split at hn
  · cases hn
    rw [kept, declarations, BodyItem.kept, BodyItem.nested, Member.nested]
    exact ⟨rfl, rfl⟩
  · cases hn
    rw [kept, declarations, Item.kept, Item.declarations]
    exact ⟨rfl, rfl⟩
  · cases hn

theorem keeps_comment {text : Verbatim} (hn : n.comment? = some text) :
    Keeps [n] k ↔ k = .comment text := by
  obtain ⟨hkept, hnone⟩ := of_comment? hn
  rw [keeps_of_declarations_eq_nil hnone, hkept, List.mem_singleton]

theorem keeps_code {code : Verbatim} (hn : n.code? = some code) :
    Keeps [n] k ↔ k = .code code := by
  obtain ⟨hkept, hnone⟩ := of_code? hn
  rw [keeps_of_declarations_eq_nil hnone, hkept, List.mem_singleton]

theorem keeps_statements {stmts : List Statement} :
    Keeps (stmts.map .statement) k ↔ k ∈ stmts.flatMap Statement.kept := by
  induction stmts with
  | nil => exact iff_of_false not_keeps_nil List.not_mem_nil
  | cons s rest ih =>
    rw [List.map_cons, keeps_cons, ih, keeps_of_declarations_eq_nil rfl, List.flatMap_cons,
      List.mem_append]
    rfl

theorem keeps_member {m : Member} {kept : List Kept} {stmts : Option (List Statement)}
    (hm : m.parts = some (kept, stmts)) :
    Keeps [.item (.member m)] k ↔ k ∈ kept ∨ Keeps ((stmts.getD []).map .statement) k := by
  obtain ⟨hkept, hnone⟩ := of_parts hm
  rw [keeps_of_declarations_eq_nil hnone, hkept, keeps_statements, List.mem_append]

/-- What is kept in a body is kept by its items or by the declarations in them. -/
theorem keeps_items {items : List BodyItem} :
    Keeps (items.map .item) k ↔
      k ∈ items.flatMap BodyItem.kept ∨ ∃ d ∈ BodyItem.declarations items, k ∈ d.kept := by
  rw [Keeps, BodyItem.declarations_eq_flatMap, List.flatMap_map, List.flatMap_map]
  rfl

theorem keeps_tops {items : List Item} :
    Keeps (items.map .top) k ↔
      k ∈ Item.keptOf items ∨ ∃ d ∈ Item.declarationsOf items, k ∈ d.kept := by
  rw [Keeps, Item.declarationsOf_eq_flatMap, Item.keptOf_eq_flatMap, List.flatMap_map,
    List.flatMap_map]
  rfl

theorem keeps_declaration {d : Declaration} (hn : n.declaration? = some d) :
    Keeps [n] k ↔ k ∈ d.toHeader.kept ∨ Keeps (d.body.map .item) k := by
  obtain ⟨hkept, hall⟩ := of_declaration? hn
  rw [keeps_singleton, hkept, hall, keeps_items, ← or_assoc, ← List.mem_append]
  simp only [List.not_mem_nil, false_or, List.mem_cons, exists_eq_or_imp]
  rfl

theorem not_keeps_directive (u : Using) : ¬Keeps [.top (.directive u)] k := by
  rw [keeps_of_declarations_eq_nil (by rw [declarations, Item.declarations]), kept, Item.kept]
  exact List.not_mem_nil

theorem keeps_scope {name : String} {fileScoped : Bool} {items : List Item} :
    Keeps [.top (.scope name fileScoped items)] k ↔ Keeps (items.map .top) k := by
  rw [keeps_singleton, kept, declarations, Item.kept, Item.declarations, keeps_tops]

end Node

/-- The nodes lie on the leaves, and the comments listed have no place in them. -/
inductive Lies : List Node → List Leaf → List Comment → Prop where
  | nil : Lies [] [] []
  | comment {n : Node} {k : Comment} {ns : List Node} {xs : List Leaf} {lost : List Comment}
      (hn : n.comment? = some (Verbatim.ofComment k)) (h : Lies ns xs lost) :
      Lies (n :: ns) (.comment k :: xs) lost
  /-- A lone semicolon. -/
  | skip {t : Token} {ns : List Node} {xs : List Leaf} {lost : List Comment}
      (ht : t.isPunct ";" = true) (h : Lies ns xs lost) : Lies ns (.token t :: xs) lost
  /-- A statement, or an item of no special shape. -/
  | code {n : Node} {run : List Token} {ns : List Node} {xs : List Leaf} {lost : List Comment}
      (hrun : Token.StartsBare run) (hn : n.code? = some (Verbatim.ofTokens run))
      (h : Lies ns xs lost) : Lies (n :: ns) (Leaf.ofTokens run ++ xs) lost
  /-- A member with nothing in braces but what it keeps as written. -/
  | member {m : Member} {kept : List Kept} {run : List Token} {ns : List Node} {xs : List Leaf}
      {lost lost₁ : List Comment} (hrun : Token.StartsBare run) (hm : m.parts = some (kept, none))
      (hspan : m.span = Token.spanOf run) (hhead : Head Token.isMemberMark run kept lost₁)
      (h : Lies ns xs lost) :
      Lies (.item (.member m) :: ns) (Leaf.ofTokens run ++ xs) (lost₁ ++ lost)
  /-- A member with statements in braces. The comments before the opening brace come first. -/
  | bodied {m : Member} {kept : List Kept} {ks : List Comment} {stmts : List Statement}
      {run : List Token} {opening closing : Token} {zs : List Leaf} {ns : List Node}
      {xs : List Leaf} {lost lost₁ lost₂ : List Comment} (hrun : Token.StartsBare run)
      (hm : m.parts =
        some (kept, some (ks.map (fun k => .comment (Verbatim.ofComment k)) ++ stmts)))
      (hspan : m.span = Token.spanOf (run ++ opening :: Leaf.tokens zs ++ [closing]))
      (hhead : Head Token.isHeadMark run kept lost₁) (hopen : opening.isPunct "\x7b" = true)
      (hbody : Lies (stmts.map .statement) zs lost₂) (hclose : closing.isPunct "\x7d" = true)
      (h : Lies ns xs lost) :
      Lies (.item (.member m) :: ns)
        (Leaf.ofTokens run ++ ks.map .comment ++ .token opening :: zs ++ .token closing :: xs)
        (lost₁ ++ lost₂ ++ lost)
  /-- A declaration with a semicolon in place of a body. -/
  | bodiless {n : Node} {d : Declaration} {run : List Token} {semicolon : Token} {ns : List Node}
      {xs : List Leaf} {lost lost₁ : List Comment} (hrun : Token.StartsBare run)
      (hn : n.declaration? = some d) (hsource : d.source = Verbatim.ofTokens (run ++ [semicolon]))
      (hspan : d.span = d.source.span) (hhead : Head Token.isHeadMark run d.toHeader.kept lost₁)
      (hend : semicolon.isPunct ";" = true) (hbody : d.body = []) (h : Lies ns xs lost) :
      Lies (n :: ns) (Leaf.ofTokens run ++ semicolon.leaves ++ xs)
        (lost₁ ++ semicolon.leading ++ lost)
  /-- A declaration with a body in braces, and perhaps a semicolon after it. -/
  | braced {n : Node} {d : Declaration} {run tail : List Token} {opening closing : Token}
      {zs : List Leaf} {ns : List Node} {xs : List Leaf} {lost lost₁ lost₂ : List Comment}
      (hrun : Token.StartsBare run) (hn : n.declaration? = some d)
      (hsource : d.source =
        Verbatim.ofTokens (run ++ opening :: Leaf.tokens zs ++ closing :: tail))
      (hspan : d.span = d.source.span)
      (hhead : Head Token.isHeadMark run d.toHeader.kept lost₁)
      (hopen : opening.isPunct "\x7b" = true) (hbody : Lies (d.body.map .item) zs lost₂)
      (hclose : closing.isPunct "\x7d" = true)
      (htail : tail = [] ∨ ∃ semicolon, tail = [semicolon] ∧ semicolon.isPunct ";" = true)
      (h : Lies ns xs lost) :
      Lies (n :: ns)
        (Leaf.ofTokens run ++ opening.leaves ++ zs ++ .token closing :: Leaf.ofTokens tail ++ xs)
        (lost₁ ++ opening.leading ++ lost₂ ++ tail.flatMap Token.leading ++ lost)
  | directive {u : Using} {run : List Token} {ns : List Node} {xs : List Leaf}
      {lost lost₁ : List Comment} (hrun : Token.StartsBare run)
      (hhead : Head Token.isUsingMark run [.joined u.target] lost₁) (h : Lies ns xs lost) :
      Lies (.top (.directive u) :: ns) (Leaf.ofTokens run ++ xs) (lost₁ ++ lost)
  /-- A namespace with its items in braces. -/
  | scope {name : String} {items : List Item} {run : List Token} {opening closing : Token}
      {zs : List Leaf} {ns : List Node} {xs : List Leaf} {lost lost₁ lost₂ : List Comment}
      (hrun : Token.StartsBare run) (hhead : Head Token.isNamespaceMark run [.joined name] lost₁)
      (hopen : opening.isPunct "\x7b" = true) (hbody : Lies (items.map .top) zs lost₂)
      (hclose : closing.isPunct "\x7d" = true) (h : Lies ns xs lost) :
      Lies (.top (.scope name false items) :: ns)
        (Leaf.ofTokens run ++ opening.leaves ++ zs ++ .token closing :: xs)
        (lost₁ ++ opening.leading ++ lost₂ ++ lost)
  /-- A namespace whose items follow a semicolon. -/
  | fileScope {name : String} {items : List Item} {run : List Token} {zs : List Leaf}
      {ns : List Node} {xs : List Leaf} {lost lost₁ lost₂ : List Comment}
      (hrun : Token.StartsBare run) (hhead : Head Token.isNamespaceMark run [.joined name] lost₁)
      (hbody : Lies (items.map .top) zs lost₂) (h : Lies ns xs lost) :
      Lies (.top (.scope name true items) :: ns) (Leaf.ofTokens run ++ zs ++ xs)
        (lost₁ ++ lost₂ ++ lost)

namespace Lies

variable {ns ns' : List Node} {xs xs' : List Leaf} {lost lost' : List Comment}

/-- Layouts that follow each other are one layout. -/
theorem append (h : Lies ns xs lost) (h' : Lies ns' xs' lost') :
    Lies (ns ++ ns') (xs ++ xs') (lost ++ lost') := by
  induction h with
  | nil => exact h'
  | comment hn h ih => exact ih.comment hn
  | skip ht h ih => exact ih.skip ht
  | code hrun hn h ih =>
    simpa only [List.append_assoc, List.cons_append] using ih.code hrun hn
  | member hrun hm hspan hhead h ih =>
    simpa only [List.append_assoc, List.cons_append] using ih.member hrun hm hspan hhead
  | bodied hrun hm hspan hhead hopen hbody hclose h _ ih =>
    simpa only [List.append_assoc, List.cons_append] using
      Lies.bodied hrun hm hspan hhead hopen hbody hclose ih
  | bodiless hrun hn hsource hspan hhead hend hbody h ih =>
    simpa only [List.append_assoc, List.cons_append] using
      ih.bodiless hrun hn hsource hspan hhead hend hbody
  | braced hrun hn hsource hspan hhead hopen hbody hclose htail h _ ih =>
    simpa only [List.append_assoc, List.cons_append] using
      Lies.braced hrun hn hsource hspan hhead hopen hbody hclose htail ih
  | directive hrun hhead h ih =>
    simpa only [List.append_assoc, List.cons_append] using ih.directive hrun hhead
  | scope hrun hhead hopen hbody hclose h _ ih =>
    simpa only [List.append_assoc, List.cons_append] using
      Lies.scope hrun hhead hopen hbody hclose ih
  | fileScope hrun hhead hbody h _ ih =>
    simpa only [List.append_assoc, List.cons_append] using
      Lies.fileScope hrun hhead hbody ih

/-- Comments in a row are items in a row. -/
theorem comments {node : Verbatim → Node} (hnode : ∀ v, (node v).comment? = some v)
    (ks : List Comment) :
    Lies (ks.map fun k => node (Verbatim.ofComment k)) (ks.map .comment) [] := by
  induction ks with
  | nil => exact .nil
  | cons k ks ih => exact ih.comment (hnode _)

end Lies

end ClassSugar
