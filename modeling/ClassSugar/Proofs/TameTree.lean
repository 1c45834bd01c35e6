import ClassSugar.Grammar.Member
import ClassSugar.Proofs.PairedTokens
import ClassSugar.Proofs.TreeInduction

/-!
# Carriage returns in trees

A tree of a paired source is *tame*. What it keeps as code is paired, so that code has carriage
returns only where a line of it ends; and what it keeps as single words, that is modifiers, names
and the keywords of accessors, has none at all. Nothing is said of the texts that a tree keeps
otherwise, such as attributes and default values: they are paired, and may have line ends in them.

The tokens of a paired source are tame (`Token.tame_of_tokenize`), and a reader of the grammar has
nothing else to make a tree of; the walk over the readers is that of `Reader.Steady`, which ends in
`CompilationUnit.tame_of_parse`. Here is what it needs to know of the tokens.
-/

namespace ClassSugar

/-! ### Tame trees -/

/-- Carriage returns stand only where a line of the code ends. -/
def Verbatim.Tame (v : Verbatim) : Prop :=
  Paired v.text.toList

/-- The code of a statement is tame, and a statement that is written anew has no carriage return. -/
def Statement.Tame : Statement → Prop
  | .source code => code.Tame
  | .comment text => text.Tame
  | .assign target value => Clean target ∧ Clean value
  | .call callee args => Clean callee ∧ ∀ a ∈ args, Clean a
  | .throwIf condition exception args => Clean condition ∧ Clean exception ∧ ∀ a ∈ args, Clean a
  | .ret value => value.Tame
  | .expr value => value.Tame

structure Parameter.Tame (p : Parameter) : Prop where
  modifiers : ∀ w ∈ p.modifiers, Clean w
  name : Clean p.name

structure Accessor.Tame (a : Accessor) : Prop where
  modifiers : ∀ w ∈ a.modifiers, Clean w
  keyword : Clean a.keyword

def PropertyBody.Tame : PropertyBody → Prop
  | .auto accessors => ∀ a ∈ accessors, a.Tame
  | .expression value => value.Tame
  | .raw code => code.Tame

def MethodBody.Tame : MethodBody → Prop
  | .block body => ∀ s ∈ body.stmts, s.Tame
  | .expression value => value.Tame
  | .absent => True

/-- The name may be one of an interface member, with dots in it. -/
structure Field.Tame (f : Field) : Prop where
  modifiers : ∀ w ∈ f.modifiers, Clean w
  name : Paired f.name.toList
  initializer : ∀ v ∈ f.initializer, v.Tame

structure Property.Tame (p : Property) : Prop where
  modifiers : ∀ w ∈ p.modifiers, Clean w
  name : Paired p.name.toList
  body : p.body.Tame
  initializer : ∀ v ∈ p.initializer, v.Tame

structure Constructor.Tame (c : Constructor) : Prop where
  modifiers : ∀ w ∈ c.modifiers, Clean w
  name : Clean c.name
  params : ∀ p ∈ c.params, p.Tame
  body : ∀ s ∈ c.body.stmts, s.Tame

structure Method.Tame (m : Method) : Prop where
  modifiers : ∀ w ∈ m.modifiers, Clean w
  params : ∀ p ∈ m.params, p.Tame
  body : m.body.Tame

/-- Of a nested type only its source is looked at. -/
def Member.Tame : Member → Prop
  | .field f => f.Tame
  | .property p => p.Tame
  | .constructor c => c.Tame
  | .method m => m.Tame
  | .type d => d.source.Tame
  | .raw code => code.Tame

def BodyItem.Tame : BodyItem → Prop
  | .member m => m.Tame
  | .statement code => code.Tame
  | .comment text => text.Tame

/-- A declaration is tame, the types nested in it apart. -/
structure Declaration.Tame (d : Declaration) : Prop where
  modifiers : ∀ w ∈ d.modifiers, Clean w
  name : Clean d.name
  typeParams : ∀ s ∈ d.typeParams, Paired s.toList
  params : ∀ p ∈ d.primaryParams, p.Tame
  source : d.source.Tame
  body : ∀ item ∈ d.body, item.Tame

/-- An item is tame, with all declarations in it. -/
inductive Item.Tame : Item → Prop where
  | declaration {d : Declaration} (h : d.Everywhere Declaration.Tame) : Tame (.declaration d)
  | scope {name : String} {fileScoped : Bool} {inner : List Item} (h : ∀ item ∈ inner, Tame item) :
      Tame (.scope name fileScoped inner)
  | directive (u : Using) : Tame (.directive u)
  | raw {code : Verbatim} (h : code.Tame) : Tame (.raw code)
  | comment {text : Verbatim} (h : text.Tame) : Tame (.comment text)

/-! ### Tame tokens -/

namespace Token.Tame

variable {t : Token}

theorem dropLeading (h : t.Tame) : Token.Tame { t with leading := [] } :=
  ⟨h.text, h.gap, nofun, h.word⟩

theorem clean_of_ident? {word : String} (h : t.Tame) (hword : t.ident? = some word) :
    Clean word := by
  unfold Token.ident? at hword
  split at hword
  · cases hword
    exact h.word ‹_›
  · cases hword

/-- A token that is some word has a clean text. -/
theorem clean_text (h : t.Tame) (hword : t.ident?.isSome = true) : Clean t.text := by
  unfold Token.ident? at hword
  split at hword
  · exact h.word ‹_›
  · cases hword

end Token.Tame

theorem Verbatim.tame_ofTokens {ts : List Token} (h : ∀ t ∈ ts, t.Tame) :
    (Verbatim.ofTokens ts).Tame :=
  Token.paired_spell h

/-- Tokens with the property are tame. -/
def Token.Tames (W : Token → Prop) : Prop :=
  ∀ t, W t → t.Tame

theorem Verbatim.tame_of_forall {W : Token → Prop} {run : List Token} (h : ∀ t ∈ run, W t)
    (hW : Token.Tames W) : (Verbatim.ofTokens run).Tame :=
  tame_ofTokens fun t ht => hW t (h t ht)

/-- The texts of tokens that are words are clean. -/
theorem Token.Tames.clean_of_words {W : Token → Prop} {words : List String} (hW : Tames W)
    (h : ∀ w ∈ words, ∃ t, W t ∧ t.ident?.isSome = true ∧ t.text = w) : ∀ w ∈ words, Clean w := by
  intro w hw
  obtain ⟨t, ht, hword, rfl⟩ := h w hw
  exact (hW t ht).clean_text hword

namespace Grammar

theorem tame_of_accessors? {modifiers : List String} {ts : List Token} {as : List Accessor}
    (h : accessors? modifiers ts = some as) (hmodifiers : ∀ w ∈ modifiers, Clean w)
    (hts : ∀ t ∈ ts, t.Tame) : ∀ a ∈ as, a.Tame := by
  fun_induction accessors? modifiers ts generalizing as with
  | case1 =>
    cases h
    nofun
  | case2 => cases h
  | case3 modifiers t r hword ih =>
    obtain ⟨ht, hr⟩ := List.forall_mem_cons.mp hts
    refine ih h (List.forall_mem_append.mpr ⟨hmodifiers, List.forall_mem_singleton.mpr ?_⟩) hr
    exact ht.clean_text (Option.isSome_of_any hword)
  | case4 => cases h
  | case5 modifiers t hword u r haccessor ih =>
    obtain ⟨more, hmore, rfl⟩ := Option.map_eq_some_iff.mp h
    obtain ⟨ht, hr⟩ := List.forall_mem_cons.mp hts
    rw [Bool.and_eq_true, Bool.and_eq_true] at haccessor
    have hkeyword : Clean t.text := ht.clean_text (Option.isSome_of_any haccessor.1.1)
    have hrest := ih hmore nofun (List.forall_mem_cons.mp hr).2
    exact List.forall_mem_cons.mpr ⟨⟨hmodifiers, hkeyword⟩, hrest⟩
  | case6 => cases h

theorem tame_propertyBodyOf {group : List Token} (h : ∀ t ∈ group, t.Tame) :
    (propertyBodyOf group).Tame := by
  have hraw : (PropertyBody.raw (Verbatim.ofTokens group)).Tame := Verbatim.tame_ofTokens h
  unfold propertyBodyOf
  split
  · next a as closing haccessors _ =>
    split
    · refine tame_of_accessors? haccessors nofun fun t ht => h t ?_
      exact List.mem_of_mem_drop ((List.dropLast_sublist _).subset ht)
    · exact hraw
  · exact hraw

/-- Modifiers are words. -/
theorem isSome_ident?_of_modifierCount (ts : List Token) :
    ∀ t ∈ ts.take (modifierCount ts), t.ident?.isSome = true := by
  fun_induction modifierCount ts with
  | case1 => nofun
  | case2 u r word hword hmodifier ih =>
    exact List.forall_mem_cons.mpr ⟨by rw [hword]; rfl, ih⟩
  | case3 => nofun
  | case4 => nofun

end Grammar

end ClassSugar
