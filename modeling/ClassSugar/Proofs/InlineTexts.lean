import ClassSugar.Proofs.Baseline
import ClassSugar.Proofs.Layout
import ClassSugar.Proofs.TameDesugaring

/-!
# Line ends of the output

The writer ends lines by itself, and it takes code apart into lines before it writes them. But not
everything that a tree keeps goes that way. Attributes, default values, types, type parameters,
constraints, base types, directives and the names of namespaces are *inline*: they are put into a
line as they stand, and whatever line ends they have stand there too. So do the arguments of another
constructor, and the initializer behind accessors with bodies.

`CompilationUnit.inlineTexts` lists these texts. Everything else that is written of a tame tree is
without carriage returns, so the lines of the output are ended as the layout says exactly if the
inline texts have none (`line_ends_normalized_iff`). The condition is not always met: an attribute
may be broken into lines in the source.
-/

namespace ClassSugar

/-! ### Inline texts -/

/-- The text that is put into a line as it stands. Code and comments are laid out line by line. -/
def Kept.inline? : Kept → Option String
  | .text s => some s
  | .joined s => some s
  | .code _ => none
  | .comment _ => none

/-- The initializer of a property behind accessors with bodies, which is put on their last line. -/
def Property.trailing? (p : Property) : Option String :=
  match p.body with
  | .raw _ => p.initializer.map Verbatim.text
  | _ => none

/-- The inline texts of a member, a nested type apart. -/
def Member.inlineTexts : Member → List String
  | .property p => (Member.property p).kept.filterMap Kept.inline? ++ p.trailing?.toList
  | m => m.kept.filterMap Kept.inline?

/-- The inline texts of an item of a body, a nested type apart. -/
def BodyItem.inlineTexts : BodyItem → List String
  | .member m => m.inlineTexts
  | .statement _ => []
  | .comment _ => []

/-- The inline texts of a declaration, the types nested in it apart. -/
def Declaration.inlineTexts (d : Declaration) : List String :=
  d.toHeader.kept.filterMap Kept.inline? ++ d.body.flatMap BodyItem.inlineTexts

mutual

/-- The inline texts of a list of items. -/
def Item.inlineTextsOf : List Item → List String
  | [] => []
  | item :: rest => item.inlineTexts ++ Item.inlineTextsOf rest

/-- The inline texts of an item. -/
def Item.inlineTexts : Item → List String
  | .directive u => [u.target]
  | .scope name _ items => name :: Item.inlineTextsOf items
  | .declaration d => d.withNested.flatMap Declaration.inlineTexts
  | .raw _ => []
  | .comment _ => []

end

/-- The inline texts of a file. -/
def CompilationUnit.inlineTexts (u : CompilationUnit) : List String :=
  Item.inlineTextsOf u.items

/-- No inline text of an item has a carriage return, those of a nested type included. -/
def BodyItem.TextsClean (item : BodyItem) : Prop :=
  (∀ s ∈ item.inlineTexts, Clean s) ∧ ∀ e ∈ item.nested, ∀ s ∈ e.inlineTexts, Clean s

/-- No inline text of a declaration has a carriage return, those of nested types included. -/
def Declaration.TextsClean (d : Declaration) : Prop :=
  ∀ e ∈ d.withNested, ∀ s ∈ e.inlineTexts, Clean s

/-- No inline text among the parts has a carriage return. -/
def Kept.AllClean (parts : List Kept) : Prop :=
  ∀ s ∈ parts.filterMap Kept.inline?, Clean s

namespace Kept

variable {parts more : List Kept} {s : String} {v : Verbatim}

@[simp] theorem allClean_nil : AllClean [] :=
  nofun

@[simp] theorem allClean_text_cons : AllClean (.text s :: parts) ↔ Clean s ∧ AllClean parts :=
  List.forall_mem_cons

@[simp] theorem allClean_joined_cons : AllClean (.joined s :: parts) ↔ Clean s ∧ AllClean parts :=
  List.forall_mem_cons

@[simp] theorem allClean_code_cons : AllClean (.code v :: parts) ↔ AllClean parts :=
  Iff.rfl

@[simp] theorem allClean_comment_cons : AllClean (.comment v :: parts) ↔ AllClean parts :=
  Iff.rfl

@[simp] theorem allClean_append : AllClean (parts ++ more) ↔ AllClean parts ∧ AllClean more := by
  rw [AllClean, List.filterMap_append, List.forall_mem_append]
  rfl

@[simp] theorem allClean_map_text {l : List String} :
    AllClean (l.map .text) ↔ ∀ s ∈ l, Clean s := by
  induction l with
  | nil => simp
  | cons s l ih => simp [ih]

@[simp] theorem allClean_map_joined {l : List String} :
    AllClean (l.map .joined) ↔ ∀ s ∈ l, Clean s := by
  induction l with
  | nil => simp
  | cons s l ih => simp [ih]

@[simp] theorem allClean_map_code {l : List Verbatim} : AllClean (l.map .code) := by
  induction l with
  | nil => simp
  | cons v l ih => simpa using ih

@[simp] theorem allClean_flatMap {α : Type} {f : α → List Kept} {l : List α} :
    AllClean (l.flatMap f) ↔ ∀ a ∈ l, AllClean (f a) := by
  induction l with
  | nil => simp
  | cons a l ih => simp [ih]

/-- A statement keeps no inline text. -/
@[simp] theorem allClean_statements {stmts : List Statement} :
    AllClean (stmts.flatMap Statement.kept) := by
  rw [allClean_flatMap]
  intro s _
  cases s <;> simp [Statement.kept]

/-- The statements in braces add nothing to what the head of a member keeps. -/
theorem allClean_of_parts {m : Member} {stmts : Option (List Statement)}
    (h : m.parts = some (parts, stmts)) : AllClean m.kept ↔ AllClean parts := by
  rw [Member.kept, h]
  exact allClean_append.trans (and_iff_left allClean_statements)

end Kept

theorem BodyItem.textsClean_iff {item : BodyItem} (h : item.nested = []) :
    item.TextsClean ↔ ∀ s ∈ item.inlineTexts, Clean s := by
  rw [TextsClean, h]
  exact and_iff_left nofun

/-- The texts of a declaration are those of its header and those of its items. -/
theorem Declaration.textsClean_iff {header : Header} {body : List BodyItem} :
    Declaration.TextsClean ⟨header, body⟩ ↔
      Kept.AllClean header.kept ∧ ∀ item ∈ body, item.TextsClean := by
  rw [TextsClean, withNested, List.forall_mem_cons, inlineTexts, List.forall_mem_append,
    BodyItem.declarations_eq_flatMap, List.forall_mem_flatMap, List.forall_mem_flatMap, and_assoc]
  exact and_congr_right fun _ => forall₂_and.symm

/-! ### Parts -/

namespace Emit

open Row (AreClean)

@[simp] theorem areClean_braced {rows : List Row} : AreClean (braced rows) ↔ AreClean rows := by
  simp +decide [braced]

@[simp] theorem areClean_attributes {as : List String} :
    AreClean (attributes as) ↔ ∀ a ∈ as, Clean a := by
  rw [attributes, Row.areClean_map]
  refine forall₂_congr fun a _ => ?_
  change Clean ("[" ++ a ++ "]") ↔ _
  simp +decide

@[simp] theorem areClean_constraints {cs : List String} :
    AreClean (constraints cs) ↔ ∀ c ∈ cs, Clean c := by
  rw [constraints, Row.areClean_map]
  refine forall₂_congr fun c _ => ?_
  change Clean ("where " ++ c) ↔ _
  simp +decide

@[simp] theorem areClean_endedConstraints {cs : List String} :
    AreClean (endedConstraints cs) ↔ ∀ c ∈ cs, Clean c := by
  fun_induction endedConstraints cs with
  | case1 => simp
  | case2 c =>
    rw [Row.areClean_cons, and_iff_left Row.areClean_nil, List.forall_mem_singleton]
    change Clean ("where " ++ c ++ ";") ↔ _
    simp +decide
  | case3 c cs _ ih =>
    rw [Row.areClean_cons, ih, List.forall_mem_cons]
    change Clean ("where " ++ c) ∧ _ ↔ _
    simp +decide

theorem clean_withModifiers {modifiers : List String} {word : String}
    (h : ∀ w ∈ modifiers, Clean w) : Clean (withModifiers modifiers word) ↔ Clean word := by
  rw [withModifiers, clean_append, clean_join, and_iff_right]
  exact List.forall_mem_map.mpr fun w hw => clean_append.mpr ⟨h w hw, by decide⟩

theorem clean_param {p : Parameter} (h : p.Tame) :
    Clean (param p) ↔ Kept.AllClean p.kept := by
  have hattributes : (∀ s ∈ p.attributes.map fun a => "[" ++ a ++ "] ", Clean s) ↔
      ∀ a ∈ p.attributes, Clean a := by
    rw [List.forall_mem_map]
    exact forall₂_congr fun a _ => by simp +decide
  have hdefault : Clean (p.defaultValue.elim "" (" = " ++ ·)) ↔
      ∀ s ∈ p.defaultValue.toList, Clean s := by
    cases p.defaultValue <;> simp +decide
  have hspace : Clean " " := by decide
  simp only [param, Parameter.kept, clean_append, clean_join, clean_withModifiers h.modifiers,
    hattributes, hdefault, hspace, h.name, and_true, Kept.allClean_append,
    Kept.allClean_map_text, Kept.allClean_joined_cons, and_assoc]

theorem clean_params {ps : List Parameter} (h : ∀ p ∈ ps, p.Tame) :
    Clean (params ps) ↔ Kept.AllClean (ps.flatMap Parameter.kept) := by
  rw [params, clean_intercalate (by decide), List.forall_mem_map, Kept.allClean_flatMap]
  exact forall₂_congr fun p hp => clean_param (h p hp)

theorem areClean_statement {s : Statement} (h : s.Tame) : AreClean (statement s) := by
  cases s with
  | source code | comment text | ret value | expr value =>
    exact (Row.areClean_verbatim h).mpr ⟨by decide, by decide⟩
  | assign target value =>
    obtain ⟨htarget, hvalue⟩ := h
    simp +decide [statement, htarget, hvalue]
  | call callee args =>
    obtain ⟨hcallee, hargs⟩ := h
    have hall := (clean_intercalate (by decide : Clean ", ") args).mpr hargs
    simp +decide [statement, hcallee, hall]
  | throwIf condition exception args =>
    obtain ⟨hcondition, hexception, hargs⟩ := h
    have hall := (clean_intercalate (by decide : Clean ", ") args).mpr hargs
    simp +decide [statement, hcondition, hexception, hall]

theorem areClean_block {b : Block} (h : ∀ s ∈ b.stmts, s.Tame) : AreClean (block b) := by
  rw [block, areClean_braced]
  intro row hrow
  obtain ⟨s, hs, hrow⟩ := List.mem_flatMap.mp hrow
  exact areClean_statement (h s hs) row hrow

theorem areClean_initialized {before ending : String} {initializer : Option Verbatim}
    (h : ∀ v ∈ initializer, v.Tame) (hending : Clean ending) :
    AreClean (initialized before initializer ending) ↔ Clean before := by
  cases initializer with
  | none => simp [initialized, hending]
  | some value =>
    rw [initialized, Row.areClean_verbatim (h value rfl)]
    simp +decide

/-! ### Members -/

theorem areClean_field {f : Field} (h : f.Tame) :
    AreClean (field f) ↔ ∀ s ∈ (Member.field f).inlineTexts, Clean s := by
  change _ ↔ Kept.AllClean (Member.field f).kept
  rw [field, Row.areClean_append, areClean_initialized h.initializer (by decide)]
  simp +decide [Member.kept, Member.parts, clean_withModifiers h.modifiers]

theorem areClean_property {p : Property} (h : p.Tame) :
    AreClean (property p) ↔ ∀ s ∈ (Member.property p).inlineTexts, Clean s := by
  have hbody := h.body
  have htexts : (∀ s ∈ (Member.property p).inlineTexts, Clean s) ↔
      Kept.AllClean (Member.property p).kept ∧ ∀ s ∈ p.trailing?.toList, Clean s :=
    List.forall_mem_append
  have hkept : Kept.AllClean (Member.property p).kept ↔
      (∀ a ∈ p.attributes, Clean a) ∧ Clean p.ty.text ∧ Clean p.name := by
    have hnone : Kept.AllClean p.body.kept := by cases p.body <;> simp [PropertyBody.kept]
    simp [Member.kept, Member.parts, hnone]
  rw [htexts, hkept]
  unfold property Property.trailing?
  cases hp : p.body with
  | auto accessors =>
    rw [hp] at hbody
    have haccessors : Clean (String.intercalate " " (accessors.map accessor)) := by
      rw [clean_intercalate (by decide), List.forall_mem_map]
      intro a ha
      exact clean_append.mpr ⟨(clean_withModifiers (hbody a ha).modifiers).mpr (hbody a ha).keyword,
        by decide⟩
    rw [Row.areClean_append, areClean_initialized h.initializer (by decide)]
    simp +decide [clean_withModifiers h.modifiers, haccessors]
  | expression value =>
    rw [hp] at hbody
    rw [Row.areClean_append, Row.areClean_verbatim hbody]
    simp +decide [clean_withModifiers h.modifiers]
  | raw code =>
    -- Here the initializer is no code of its own, but the end of a line.
    rw [hp] at hbody
    rw [Row.areClean_append, Row.areClean_append, Row.areClean_verbatim hbody]
    cases p.initializer with
    | none => simp +decide [clean_withModifiers h.modifiers]
    | some value => simp +decide [clean_withModifiers h.modifiers, and_assoc]

theorem areClean_constructor {c : Constructor} (h : c.Tame) :
    AreClean (constructor c) ↔ ∀ s ∈ (Member.constructor c).inlineTexts, Clean s := by
  -- Whatever form the body has, it is code, and only the head has inline texts.
  have hkept : Kept.AllClean (Member.constructor c).kept ↔ Kept.AllClean c.headKept := by
    have hparts : (∃ value, (Member.constructor c).parts =
        some (c.headKept ++ [.code value], none)) ∨
        (Member.constructor c).parts = some (c.headKept, some c.body.stmts) := by
      dsimp only [Member.parts]
      split
      · exact .inl ⟨_, rfl⟩
      · exact .inr rfl
    rcases hparts with ⟨value, hparts⟩ | hparts
    · rw [Kept.allClean_of_parts hparts]
      simp
    · rw [Kept.allClean_of_parts hparts]
  have hcall : AreClean (c.initializer.elim [] fun call => [.line 1 (": " ++ call)]) ↔
      ∀ s ∈ c.initializer.toList, Clean s := by
    cases c.initializer with
    | none => simp
    | some call =>
      rw [Option.elim_some, Row.areClean_cons, and_iff_left Row.areClean_nil]
      change Clean (": " ++ call) ↔ _
      simp +decide
  change _ ↔ Kept.AllClean (Member.constructor c).kept
  rw [hkept, constructor]
  simp +decide [Constructor.headKept, clean_withModifiers h.modifiers, h.name,
    clean_params h.params, hcall, areClean_block h.body]

theorem areClean_method {m : Method} (h : m.Tame) :
    AreClean (method m) ↔ ∀ s ∈ (Member.method m).inlineTexts, Clean s := by
  have hbody := h.body
  have hsignature : Clean (withModifiers m.modifiers m.returnType.text ++ " " ++ m.name ++
      m.typeParams.getD "" ++ "(" ++ params m.params ++ ")") ↔
      Clean m.returnType.text ∧ Clean m.name ∧ (∀ s ∈ m.typeParams.toList, Clean s) ∧
        Kept.AllClean (m.params.flatMap Parameter.kept) := by
    have htypes : Clean (m.typeParams.getD "") ↔ ∀ s ∈ m.typeParams.toList, Clean s := by
      cases m.typeParams <;> simp
    have hfixed : Clean " " ∧ Clean "(" ∧ Clean ")" := by decide
    simp only [clean_append, clean_withModifiers h.modifiers, clean_params h.params, htypes, hfixed,
      and_true, and_assoc]
  have hhead : Kept.AllClean m.headKept ↔ (∀ a ∈ m.attributes, Clean a) ∧
      (Clean m.returnType.text ∧ Clean m.name ∧ (∀ s ∈ m.typeParams.toList, Clean s) ∧
        Kept.AllClean (m.params.flatMap Parameter.kept)) ∧ ∀ c ∈ m.constraints, Clean c := by
    simp only [Method.headKept, Kept.allClean_append, Kept.allClean_map_text,
      Kept.allClean_joined_cons, Kept.allClean_nil, Kept.allClean_map_joined, and_true, and_assoc]
  rw [← hsignature] at hhead
  change _ ↔ Kept.AllClean (Member.method m).kept
  unfold method
  cases hm : m.body with
  | block b =>
    rw [hm] at hbody
    have hparts : (Member.method m).parts = some (m.headKept, some b.stmts) := by
      rw [Member.parts, hm]
    rw [Kept.allClean_of_parts hparts, hhead]
    simp only [Row.areClean_append, areClean_attributes, Row.areClean_text, areClean_constraints,
      areClean_block hbody, and_true]
  | expression value =>
    -- The arrow stands behind the signature, or behind the constraints if there are any.
    rw [hm] at hbody
    have hparts : (Member.method m).parts = some (m.headKept ++ [.code value], none) := by
      rw [Member.parts, hm]
    rw [Kept.allClean_of_parts hparts, Kept.allClean_append, hhead]
    dsimp only
    split
    · next hempty =>
      rw [List.isEmpty_iff.mp hempty, Row.areClean_append, Row.areClean_verbatim hbody,
        clean_append]
      simp +decide
    · simp +decide [Row.areClean_verbatim hbody, and_assoc]
  | absent =>
    have hparts : (Member.method m).parts = some (m.headKept, none) := by
      rw [Member.parts, hm]
    rw [Kept.allClean_of_parts hparts, hhead]
    dsimp only
    split
    · next hempty =>
      rw [List.isEmpty_iff.mp hempty, Row.areClean_append, Row.areClean_text, clean_append]
      simp +decide
    · simp [and_assoc]

/-! ### Declarations -/

theorem areClean_header {d : Declaration} (h : d.Tame) (hplain : d.IsPlain) :
    AreClean (header d) ↔ Kept.AllClean d.toHeader.kept := by
  -- A plain header has neither parameters nor arguments to a base class.
  obtain ⟨-, -, hparams, -, hargs⟩ :=
    Declaration.headerIsBaseline_iff.mp (Declaration.isPlain_iff.mp hplain).1
  have hentries : Kept.AllClean (d.bases.flatMap BaseEntry.kept) ↔ ∀ b ∈ d.bases, Clean b.name := by
    rw [Kept.allClean_flatMap]
    refine forall₂_congr fun b hb => ?_
    rw [BaseEntry.kept, hargs b hb]
    simp
  have hbases : Clean (if d.bases.isEmpty then "" else
      " : " ++ String.intercalate ", " (d.bases.map BaseEntry.name)) ↔
      ∀ b ∈ d.bases, Clean b.name := by
    split
    · next hempty => simp [List.isEmpty_iff.mp hempty]
    · rw [clean_append, clean_intercalate (by decide), List.forall_mem_map]
      simp +decide
  have htypes : Clean d.selfType ↔ ∀ s ∈ d.typeParams.toList, Clean s := by
    rw [Declaration.selfType, clean_append, and_iff_right h.name]
    cases d.typeParams <;> simp
  have hkeyword : Clean (keyword d.kind) := by cases d.kind <;> decide
  have hspace : Clean " " := by decide
  simp only [header, Header.kept, hparams, Option.getD_none, List.flatMap_nil, List.append_nil,
    Row.areClean_append, areClean_attributes, Row.areClean_text, areClean_constraints,
    clean_append, clean_withModifiers h.modifiers, hkeyword, hspace, htypes, hbases, true_and,
    Kept.allClean_append, Kept.allClean_map_text, Kept.allClean_map_joined, hentries, and_assoc]

/-- **The items of a body.** Each is written on rows of its own. -/
theorem areClean_bodyItems {body : List BodyItem} {attached : Bool} {rows : List Row}
    (hitems : ∀ item ∈ body, ∀ rows, bodyItem item = .ok rows →
      (AreClean rows ↔ item.TextsClean))
    (h : bodyItems attached body = .ok rows) :
    AreClean rows ↔ ∀ item ∈ body, item.TextsClean := by
  induction body generalizing attached rows with
  | nil =>
    rw [bodyItems] at h
    cases h
    simp
  | cons item rest ih =>
    obtain ⟨hitem, hrest⟩ := List.forall_mem_cons.mp hitems
    obtain ⟨first, more, hfirst, hmore, rfl⟩ := bodyItems_cons_eq_ok_iff.mp h
    have hgap : AreClean (if attached then [] else [.gap]) := by
      cases attached <;> simp [Row.chars]
    rw [Row.areClean_append, Row.areClean_append, and_iff_right hgap, hitem first hfirst,
      ih hrest hmore, List.forall_mem_cons]

/-- **An item of a body**, given what is to be shown for a type nested in it. -/
theorem areClean_bodyItem {item : BodyItem} {rows : List Row} (hitem : item.Tame)
    (htypes : ∀ n, item = .member (.type n) → ∀ rows, declaration n = .ok rows →
      (AreClean rows ↔ n.TextsClean))
    (h : bodyItem item = .ok rows) : AreClean rows ↔ item.TextsClean := by
  have hcode : ∀ {code : Verbatim}, code.Tame →
      (AreClean (Row.verbatim "" code "") ↔ ∀ s ∈ ([] : List String), Clean s) := by
    intro code hcode
    rw [Row.areClean_verbatim hcode]
    simp
  -- Only a nested type has texts below it, so for the others the rows of the item itself decide.
  have hown : ∀ {own : List Row}, item.nested = [] → bodyItem item = .ok own →
      (AreClean own ↔ ∀ s ∈ item.inlineTexts, Clean s) → (AreClean rows ↔ item.TextsClean) := by
    intro own hnested hwritten hclean
    rw [BodyItem.textsClean_iff hnested, ← hclean, Except.ok.inj (h.symm.trans hwritten)]
  cases item with
  | statement code | comment text =>
    exact hown (by rw [BodyItem.nested]) (by rw [bodyItem]) (hcode hitem)
  | member m =>
    have hmember {own : List Row} (hnested : m.nested = []) (hwritten : member m = .ok own) :=
      hown ((BodyItem.nested.eq_1 m).trans hnested) ((bodyItem.eq_1 m).trans hwritten)
    cases m with
    | type n =>
      rw [bodyItem, member] at h
      rw [htypes n rfl rows h, BodyItem.TextsClean, BodyItem.nested, Member.nested]
      exact (and_iff_right (List.forall_mem_nil _)).symm
    | field f => exact hmember (by rw [Member.nested]) (by rw [member]) (areClean_field hitem)
    | property p => exact hmember (by rw [Member.nested]) (by rw [member]) (areClean_property hitem)
    | constructor c =>
      exact hmember (by rw [Member.nested]) (by rw [member]) (areClean_constructor hitem)
    | method m => exact hmember (by rw [Member.nested]) (by rw [member]) (areClean_method hitem)
    | raw code => exact hmember (by rw [Member.nested]) (by rw [member]) (hcode hitem)

/-- **A declaration is written without carriage returns exactly if its inline texts have none**,
those of the types nested in it included. -/
theorem areClean_declaration (d : Declaration) (h : d.Everywhere Declaration.Tame)
    {rows : List Row} (hrows : declaration d = .ok rows) : AreClean rows ↔ d.TextsClean := by
  induction d using Declaration.nestedInduction generalizing rows with
  | step header body ih =>
    obtain ⟨hhere, hbelow⟩ := h
    obtain ⟨hplain, inner, hinner, rfl⟩ := declaration_eq_ok_iff.mp hrows
    rw [Row.areClean_append, areClean_braced, areClean_header hhere hplain,
      Declaration.textsClean_iff]
    refine and_congr_right fun _ => areClean_bodyItems (fun item hitem rows hrows => ?_) hinner
    refine areClean_bodyItem (hhere.body item hitem) ?_ hrows
    rintro n rfl rows hrows
    exact ih n hitem (hbelow n hitem) hrows

/-! ### Files -/

/-- **The items of a file.** -/
theorem areClean_items (all : List Item) (h : ∀ item ∈ all, item.Tame) {previous : Option Item}
    {rows : List Row} (hrows : items previous all = .ok rows) :
    AreClean rows ↔ ∀ s ∈ Item.inlineTextsOf all, Clean s := by
  induction all using Item.listInduction generalizing previous rows with
  | nil =>
    rw [items] at hrows
    cases hrows
    simp [Item.inlineTextsOf]
  | cons next rest hinner ih =>
    obtain ⟨hnext, hrest⟩ := List.forall_mem_cons.mp h
    obtain ⟨first, more, hfirst, hmore, rfl⟩ := items_cons_eq_ok_iff.mp hrows
    -- An empty line between two items has no text.
    have hgap : AreClean (if previous.any (separated · next) then [.gap] else []) := by
      split <;> simp [Row.chars]
    -- What an item writes, one case per constructor; a namespace is left to the induction.
    have hitem : AreClean first ↔ ∀ s ∈ next.inlineTexts, Clean s := by
      cases hnext with
      | directive u =>
        rw [item] at hfirst
        rw [← Except.ok.inj hfirst, Item.inlineTexts, List.forall_mem_singleton]
        cases hglobal : u.isGlobal <;> simp +decide [directive, hglobal]
      | raw hcode =>
        rw [item] at hfirst
        rw [← Except.ok.inj hfirst, Item.inlineTexts, Row.areClean_verbatim hcode]
        simp
      | comment htext =>
        rw [item] at hfirst
        rw [← Except.ok.inj hfirst, Item.inlineTexts, Row.areClean_verbatim htext]
        simp
      | @declaration d hd =>
        rw [item] at hfirst
        rw [areClean_declaration d hd hfirst, Item.inlineTexts]
        exact List.forall_mem_flatMap.symm
      | @scope name fileScoped inner hscope =>
        obtain ⟨innerRows, hinnerRows, rfl⟩ := item_scope_eq_ok_iff.mp hfirst
        rw [Item.inlineTexts, List.forall_mem_cons,
          ← hinner name fileScoped inner rfl hscope hinnerRows]
        cases fileScoped with
        | true => cases inner <;> simp +decide [scopeRows]
        | false => simp +decide [scopeRows]
    rw [Row.areClean_append, Row.areClean_append, and_iff_right hgap, hitem, ih hrest hmore,
      Item.inlineTextsOf, List.forall_mem_append]

end Emit

/-- **Line ends are normalized but for those inside of inline texts.** Let every carriage return of
a source stand before a newline. If the source is read and what desugaring leaves of it is written,
then its lines are ended as the layout says, and there is no other carriage return in it, exactly if
no inline text of the desugared file has one. Code, comments and names never get in the way. -/
theorem line_ends_normalized_iff {ext : Extensions} {source : String} {base : Nat}
    {u : CompilationUnit} {o : Options} {layout : Layout} {text : String}
    (hpaired : Paired source.toList) (hparse : CompilationUnit.parse ext source base = .ok u)
    (hemit : (u.desugar o).result.emit layout = .ok text) :
    layout.lineEnd.Normalized text.toList ↔
      ∀ s ∈ (u.desugar o).result.inlineTexts, Clean s := by
  unfold CompilationUnit.emit at hemit
  cases hrows : Emit.items none (u.desugar o).result.items with
  | error e =>
    rw [hrows] at hemit
    cases hemit
  | ok rows =>
    rw [hrows] at hemit
    rw [← Except.ok.inj hemit, Row.normalized_render_iff]
    have htame := u.tame_of_parse hpaired hparse
    exact Emit.areClean_items _ (Item.tame_desugarAll u.items htame) hrows

/-- An attribute that is broken into two lines. -/
def brokenAttribute : String :=
  "[A(1,\r\n    2)]\r\nclass C\r\n\x7b\r\n\x7d\r\n"

/-- A comment, a loose statement and a verbatim string in several lines. -/
def brokenCode : String :=
  "class C(string s) \x7b\r\n  /* a\r\n b */\r\n  f(\r\n    1);\r\n  string t = s + @\"a\r\nb\";\r\n\x7d"

/-- The line end inside of the attribute gets a second carriage return. Those of the code do not. -/
theorem line_ends_normalized_iff_brokenAttribute :
    (∃ u, Paired brokenAttribute.toList ∧ CompilationUnit.parse {} brokenAttribute 1 = .ok u ∧
      (u.desugar {}).result.emit { lineEnd := .crlf } =
        .ok "[A(1,\r\r\n    2)]\r\nclass C\r\n\x7b\r\n\x7d\r\n" ∧
      ¬LineEnd.crlf.Normalized "[A(1,\r\r\n    2)]\r\nclass C\r\n\x7b\r\n\x7d\r\n".toList) ∧
    ∃ u text, Paired brokenCode.toList ∧ CompilationUnit.parse {} brokenCode 1 = .ok u ∧
      (u.desugar {}).result.emit { lineEnd := .crlf } = .ok text ∧
      LineEnd.crlf.Normalized text.toList := by
  have hattribute : ((CompilationUnit.parse {} brokenAttribute 1).toOption.map fun u =>
      (decide ((u.desugar {}).result.emit { lineEnd := .crlf } =
          .ok "[A(1,\r\r\n    2)]\r\nclass C\r\n\x7b\r\n\x7d\r\n"),
        (u.desugar {}).result.inlineTexts.any fun s => decide (¬Clean s))) = some (true, true) := by
    decide +kernel
  have hcode : ((CompilationUnit.parse {} brokenCode 1).toOption.map fun u =>
      (((u.desugar {}).result.emit { lineEnd := .crlf }).isOk,
        (u.desugar {}).result.inlineTexts.all fun s => decide (Clean s))) = some (true, true) := by
    decide +kernel
  refine ⟨?_, ?_⟩
  · obtain ⟨u, hparse, hrun⟩ := exists_ok_of_map hattribute
    obtain ⟨hemit, hbroken⟩ := Prod.mk.inj hrun
    obtain ⟨s, hs, hbreak⟩ := List.any_eq_true.mp hbroken
    have hpaired : Paired brokenAttribute.toList := by decide +kernel
    have hiff := line_ends_normalized_iff hpaired hparse (of_decide_eq_true hemit)
    exact ⟨u, hpaired, hparse, of_decide_eq_true hemit,
      fun hnormal => of_decide_eq_true hbreak (hiff.mp hnormal s hs)⟩
  · obtain ⟨u, hparse, hrun⟩ := exists_ok_of_map hcode
    obtain ⟨hwritten, hclean⟩ := Prod.mk.inj hrun
    cases hemit : (u.desugar {}).result.emit { lineEnd := .crlf } with
    | error e =>
      rw [hemit] at hwritten
      cases hwritten
    | ok text =>
      have hpaired : Paired brokenCode.toList := by decide +kernel
      have hiff := line_ends_normalized_iff hpaired hparse hemit
      exact ⟨u, text, hpaired, hparse, hemit, hiff.mpr fun s hs =>
        of_decide_eq_true (List.all_eq_true.mp hclean s hs)⟩

end ClassSugar
