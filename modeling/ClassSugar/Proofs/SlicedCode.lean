import ClassSugar.Proofs.BodyCoverage
import ClassSugar.Proofs.LexedTokens
import ClassSugar.Proofs.TreeInduction

/-!
# Code at its positions

The code of a tree is cut out of the source by positions in machine words. As long as the source ends
below the largest word the positions are exact, the code is the one that the tokens spell
(`CompilationUnit.parse_of_parseAt`), and class bodies lose no code and repeat none
(`declarations_faithful`). A source that ends right behind the largest word is already different: its
last token ends at zero, and the code that ends with it loses it.
-/

namespace ClassSugar

/-! ### Slices that change nothing -/

/-- The code is the text of the source at its span. -/
def Verbatim.Sliced (source : String) (base : Nat) (v : Verbatim) : Prop :=
  v.slice? source base = some v

section Slices

variable {source : String} {base : Nat}

theorem Verbatim.sliced_of_covers {v : Verbatim} {text : List Char}
    (h : v.span.Covers source base text) (htext : v.text = String.ofList text) :
    v.Sliced source base := by
  rw [Sliced, slice?, Span.slice?, if_pos h.within, h.textIn_eq, ← htext]
  rfl

theorem mapM_eq_some_self {α : Type} {f : α → Option α} {xs : List α}
    (h : ∀ x ∈ xs, f x = some x) : xs.mapM f = some xs := by
  induction xs with
  | nil => rfl
  | cons x xs ih =>
    rw [List.mapM_cons, h x List.mem_cons_self, ih fun y hy => h y (List.mem_cons_of_mem _ hy)]
    rfl

theorem Statement.slice?_eq_some {s : Statement}
    (h : ∀ v, .code v ∈ s.kept → v.Sliced source base) : s.slice? source base = some s := by
  cases s with
  | source v | ret v | expr v => exact congrArg (Option.map _) (h v List.mem_cons_self)
  | comment | assign | call | throwIf => rfl

theorem Block.slice?_eq_some {b : Block}
    (h : ∀ v, .code v ∈ b.stmts.flatMap Statement.kept → v.Sliced source base) :
    b.slice? source base = some b := by
  refine congrArg (Option.map Block.mk) (mapM_eq_some_self fun s hs => ?_)
  exact Statement.slice?_eq_some fun v hv => h v (List.mem_flatMap.mpr ⟨s, hs, hv⟩)

theorem Verbatim.sliceOption?_eq_some {v : Option Verbatim}
    (h : ∀ w, v = some w → w.Sliced source base) :
    Verbatim.sliceOption? source base v = some v := by
  cases v with
  | none => rfl
  | some v => exact congrArg (Option.map some) (h v rfl)

/-- What a member keeps is all that is sliced of it. -/
theorem Member.slice?_eq_some {m : Member} (hkept : ∀ v, .code v ∈ m.kept → v.Sliced source base)
    (htype : ∀ d, m = .type d → d.slice? source base = some d) :
    m.slice? source base = some m := by
  cases m with
  | field f =>
    have hinitializer := Verbatim.sliceOption?_eq_some fun v (hv : f.initializer = some v) =>
      hkept v (by simp [Member.kept, Member.parts, hv])
    rw [Member.slice?, hinitializer]
    rfl
  | property p =>
    have hinitializer := Verbatim.sliceOption?_eq_some fun v (hv : p.initializer = some v) =>
      hkept v (by simp [Member.kept, Member.parts, hv])
    have hbody : p.body.slice? source base = some p.body := by
      cases hp : p.body with
      | auto accessors => rfl
      | expression v | raw v =>
        have hv : v.Sliced source base :=
          hkept v (by simp [Member.kept, Member.parts, hp, PropertyBody.kept])
        exact congrArg (Option.map _) hv
    rw [Member.slice?, hbody, hinitializer]
    rfl
  | constructor c =>
    have hbody : c.body.slice? source base = some c.body := by
      refine Block.slice?_eq_some fun v hv => hkept v ?_
      -- A constructor may be written with an arrow, and then its code is in its head.
      obtain ⟨kept, stmts, hparts, hv⟩ : ∃ kept stmts,
          (Member.constructor c).parts = some (kept, stmts) ∧
            .code v ∈ kept ++ (stmts.getD []).flatMap Statement.kept := by
        dsimp only [Member.parts]
        split
        · rename_i value hstmts
          rw [hstmts] at hv
          exact ⟨_, none, rfl, List.mem_append_left _ (List.mem_append_right _ hv)⟩
        · exact ⟨_, _, rfl, List.mem_append_right _ hv⟩
      rwa [Member.kept, hparts]
    rw [Member.slice?, hbody]
    rfl
  | method m =>
    have hbody : m.body.slice? source base = some m.body := by
      cases hm : m.body with
      | block body =>
        refine congrArg (Option.map _) (Block.slice?_eq_some fun v hv => hkept v ?_)
        simp only [Member.kept, Member.parts, hm]
        exact List.mem_append_right _ hv
      | expression v =>
        have hv : v.Sliced source base := hkept v (by simp [Member.kept, Member.parts, hm])
        exact congrArg (Option.map _) hv
      | absent => rfl
    rw [Member.slice?, hbody]
    rfl
  | type d =>
    rw [Member.slice?, htype d rfl]
    rfl
  | raw code =>
    have hcode : code.Sliced source base := hkept code List.mem_cons_self
    rw [Member.slice?, hcode]
    rfl

/-- What a declaration has of code, nested types apart, is the text of the source. -/
def Declaration.Sliced (source : String) (base : Nat) (d : Declaration) : Prop :=
  d.source.Sliced source base ∧ ∀ v, .code v ∈ d.kept → v.Sliced source base

theorem BodyItem.sliceAll?_eq_some {body : List BodyItem}
    (h : ∀ item ∈ body, item.slice? source base = some item) :
    BodyItem.sliceAll? source base body = some body := by
  induction body with
  | nil => rfl
  | cons item rest ih =>
    rw [BodyItem.sliceAll?, h item List.mem_cons_self,
      ih fun item' hitem => h item' (List.mem_cons_of_mem _ hitem)]
    rfl

/-- **If all code is the text of the source, slicing changes nothing.** -/
theorem Declaration.slice?_eq_some {d : Declaration}
    (h : ∀ e ∈ d.withNested, e.Sliced source base) : d.slice? source base = some d := by
  induction d using Declaration.nestedInduction with
  | step header body ih =>
    simp only [Declaration.withNested, List.forall_mem_cons, BodyItem.declarations_eq_flatMap] at h
    obtain ⟨⟨hsource, hkept⟩, hnested⟩ := h
    have hbody : BodyItem.sliceAll? source base body = some body := by
      refine BodyItem.sliceAll?_eq_some fun item hitem => ?_
      have hitemKept : ∀ v, .code v ∈ item.kept → v.Sliced source base := fun v hv =>
        hkept v (List.mem_append_right _ (List.mem_flatMap.mpr ⟨item, hitem, hv⟩))
      cases item with
      | comment text => rfl
      | statement code =>
        rw [BodyItem.slice?, hitemKept code List.mem_cons_self]
        rfl
      | member m =>
        rw [BodyItem.slice?, Member.slice?_eq_some hitemKept]
        · rfl
        · rintro d rfl
          refine ih d hitem fun e he => hnested e ?_
          exact List.mem_flatMap.mpr ⟨_, hitem, by rwa [BodyItem.nested, Member.nested]⟩
    rw [Declaration.slice?, hsource, hbody]
    rfl

theorem Item.sliceAll?_eq_some {items : List Item}
    (hkept : ∀ v, .code v ∈ Item.keptOf items → v.Sliced source base)
    (h : ∀ d ∈ Item.declarationsOf items, d.Sliced source base) :
    Item.sliceAll? source base items = some items := by
  induction items using Item.listInduction with
  | nil => rfl
  | cons item rest hinner ih =>
    rw [Item.keptOf] at hkept
    rw [Item.declarationsOf] at h
    have hitem : item.slice? source base = some item := by
      have hhere : ∀ v, .code v ∈ item.kept → v.Sliced source base := fun v hv =>
        hkept v (List.mem_append_left _ hv)
      have hdeclared : ∀ d ∈ item.declarations, d.Sliced source base := fun d hd =>
        h d (List.mem_append_left _ hd)
      cases item with
      | directive u => rfl
      | comment text => rfl
      | raw code =>
        rw [Item.slice?, hhere code List.mem_cons_self]
        rfl
      | declaration d =>
        rw [Item.slice?, Declaration.slice?_eq_some hdeclared]
        rfl
      | scope name fileScoped inner =>
        rw [Item.slice?, hinner name fileScoped inner rfl hhere hdeclared]
        rfl
    rw [Item.sliceAll?, hitem, ih (fun v hv => hkept v (List.mem_append_right _ hv))
      fun d hd => h d (List.mem_append_right _ hd)]
    rfl

end Slices

/-! ### Trees at positions that fit -/

section Parsed

variable {ext : Extensions} {source : String} {u : CompilationUnit}

/-- Code among the leaves is sliced as it is. -/
theorem Verbatim.WrittenIn.sliced {base : Nat} {ts : List Token} {v : Verbatim} {xs : List Leaf}
    {eof : Token} (hv : v.WrittenIn xs) (h : Token.tokenize source base = .ok ts)
    (hts : ts.map Token.bare = Leaf.tokens xs ++ [eof]) : v.Sliced source base := by
  obtain ⟨run, hne, hrun, rfl⟩ := hv
  obtain ⟨run', hrun', rfl, -⟩ := Token.exists_run_of_isInfix h hts hrun
  rw [Verbatim.ofTokens_map_bare]
  have hne' : run' ≠ [] := fun hnil => hne (by rw [hnil, List.map_nil])
  exact Verbatim.sliced_of_covers (Token.covers_spanOf h hrun' hne') String.ofList_toList.symm

/-- **The code of a tree is the text of the source.** -/
theorem CompilationUnit.slice?_eq_some {base : Nat}
    (h : CompilationUnit.parse ext source base = .ok u) : u.slice? source base = some u := by
  obtain ⟨ts, xs, ks, lost, eof, htokenize, -, hthins, hlies, -⟩ := CompilationUnit.parse_lays h
  have hts := hthins.map_bare_eq
  have hkeeps : ∀ v, u.Keeps (.code v) → v.Sliced source base := fun v hv =>
    (hlies.writtenIn_of_keeps (Node.keeps_tops.mpr hv)).sliced htokenize hts
  refine congrArg (Option.map CompilationUnit.mk)
    (Item.sliceAll?_eq_some (fun v hv => hkeeps v (.inl hv)) fun d hd => ⟨?_, fun v hv => ?_⟩)
  · have hmem : d ∈ (u.items.map Node.top).flatMap Node.declarations := by
      rw [Item.declarationsOf_eq_flatMap] at hd
      rw [List.flatMap_map]
      exact hd
    obtain ⟨run, hne, hinfix, -, hsource, -⟩ := hlies.standsIn_of_mem hmem
    have hwritten : d.source.WrittenIn xs := ⟨run, hne, hinfix, hsource⟩
    exact hwritten.sliced htokenize hts
  · exact hkeeps v (.inr ⟨d, hd, hv⟩)

variable {base : UInt32}

/-- **Below the largest word, words are no restriction**: the tree is the one with exact positions,
and its tokens are too. -/
theorem CompilationUnit.parse_of_parseAt
    (hsize : base.toNat + source.utf8ByteSize < UInt32.size)
    (h : CompilationUnit.parseAt ext source base = .ok u) :
    CompilationUnit.parse ext source base.toNat = .ok u ∧
      ∃ ts, Token.lex source base = .ok ts ∧ Token.tokenize source base.toNat = .ok ts := by
  unfold CompilationUnit.parseAt at h
  split at h
  · cases h
  · cases h
  · rename_i ts hlex
    obtain ⟨us, htokenize, rfl⟩ := Token.exists_tokenize_of_lex hlex
    rw [Token.map_word_of_fits htokenize hsize] at h hlex
    split at h
    · cases h
    · rename_i items c hitems
      have hparse : CompilationUnit.parse ext source base.toNat = .ok ⟨items⟩ := by
        unfold CompilationUnit.parse
        rw [htokenize]
        dsimp only
        rw [hitems]
      rw [CompilationUnit.slice?_eq_some hparse] at h
      cases h
      exact ⟨hparse, us, hlex, htokenize⟩

/-- **Class bodies lose no code and repeat none**, if the source ends below the largest word. -/
theorem declarations_faithful {d : Declaration}
    (hsize : base.toNat + source.utf8ByteSize < UInt32.size)
    (h : CompilationUnit.parseAt ext source base = .ok u) (hd : d ∈ u.declarations) :
    ∃ ts, Token.lex source base = .ok ts ∧ d.Faithful source base.toNat ts := by
  obtain ⟨hparse, ts, hlex, htokenize⟩ := CompilationUnit.parse_of_parseAt hsize h
  obtain ⟨ts', htokenize', hfaithful⟩ := CompilationUnit.faithful_of_parse hparse hd
  cases htokenize.symm.trans htokenize'
  exact ⟨ts, hlex, hfaithful⟩

end Parsed

/-- Semicolons between items, a loose statement, an event that is kept as it is after it was tried
as a method, a comment, and a type within the class. -/
def crowdedSource : String :=
  "class A(int n)\n\x7b\n    ; Log(n);\n    event E<int> F;\n" ++
    "    // k\n    record B\x7bint P => n; ;\x7d;\n\x7d\n"

theorem declarations_faithful_crowdedSource :
    ∃ u outer inner, CompilationUnit.parseAt {} crowdedSource 1 = .ok u ∧
      u.declarations = [outer, inner] ∧ inner.span = ⟨65, 89⟩ ∧
      outer.body.filterMap BodyItem.span? = [⟨24, 31⟩, ⟨36, 51⟩, ⟨65, 89⟩] ∧
      ∃ ts, Token.lex crowdedSource 1 = .ok ts ∧ outer.Faithful crowdedSource 1 ts := by
  have hrun : (CompilationUnit.parseAt {} crowdedSource 1).toOption.map (fun u =>
        u.declarations.map fun d => (d.span, d.body.filterMap BodyItem.span?)) =
      some [(⟨1, 91⟩, [⟨24, 31⟩, ⟨36, 51⟩, ⟨65, 89⟩]), (⟨65, 89⟩, [⟨74, 85⟩])] := by
    decide +kernel
  obtain ⟨u, h, hrun⟩ := exists_ok_of_map hrun
  obtain ⟨outer, rest, hdeclarations, houter, hrest⟩ := List.map_eq_cons_iff.mp hrun
  obtain ⟨inner, none, rfl, hinner, hnone⟩ := List.map_eq_cons_iff.mp hrest
  rw [List.map_eq_nil_iff.mp hnone] at hdeclarations
  have hmem : outer ∈ u.declarations := hdeclarations ▸ List.mem_cons_self
  exact ⟨u, outer, inner, h, hdeclarations, (Prod.mk.inj hinner).1, (Prod.mk.inj houter).2,
    declarations_faithful (by decide +kernel) h hmem⟩

/-- A class with a field. -/
def smallClass : String :=
  "class A \x7b int x; \x7d"

/-- The brace that ends the class ends behind the largest word. So it is said to start at zero, before
the field in the body, and it is missing in the code that is kept of the class. -/
theorem declarations_faithful_wrapped :
    ∃ u d, CompilationUnit.parseAt {} smallClass 4294967278 = .ok u ∧ u.declarations = [d] ∧
      d.source.text = "class A \x7b int x; " ∧ d.span = ⟨4294967278, 4294967295⟩ ∧
      ∀ ts, Token.lex smallClass 4294967278 = .ok ts → ¬d.Faithful smallClass 4294967278 ts := by
  have hrun : (CompilationUnit.parseAt {} smallClass 4294967278).toOption.map (fun u =>
        u.declarations.map fun d => (d.source.text, d.span, d.body.filterMap BodyItem.span?)) =
      some [("class A \x7b int x; ", ⟨4294967278, 4294967295⟩, [⟨4294967288, 4294967294⟩])] := by
    decide +kernel
  have hclose : (Token.lex smallClass 4294967278).toOption.map
      (List.all · fun t => !t.isPunct "\x7d" || t.span.lo == 0) = some true := by
    decide +kernel
  obtain ⟨u, h, hrun⟩ := exists_ok_of_map hrun
  obtain ⟨d, rest, hdeclarations, hd, hrest⟩ := List.map_eq_cons_iff.mp hrun
  rw [List.map_eq_nil_iff.mp hrest] at hdeclarations
  obtain ⟨hsource, hd⟩ := Prod.mk.inj hd
  obtain ⟨hspan, hbody⟩ := Prod.mk.inj hd
  refine ⟨u, d, h, hdeclarations, hsource, hspan, fun ts hts hfaithful => ?_⟩
  rw [hts] at hclose
  have hzero : ∀ t ∈ ts, t.isPunct "\x7d" = true → t.span.lo = 0 := by
    intro t ht hpunct
    have hall := List.all_eq_true.mp (Option.some.inj hclose) t ht
    rw [hpunct] at hall
    exact beq_iff_eq.mp hall
  obtain ⟨run, hinfix, -, ⟨_, _, _, _, _, hempty⟩ |
    ⟨head, opening, inner, closing, tail, rfl, _, _, hfill, hpunct, _⟩⟩ := hfaithful.stands
  · rw [hempty] at hbody
    cases hbody
  · have hmem : closing ∈ ts := hinfix.subset (by simp)
    obtain ⟨-, -, hend⟩ := hfill.inside ⟨4294967288, 4294967294⟩ (by rw [hbody]; simp)
    rw [hzero closing hmem hpunct] at hend
    exact absurd hend (by decide)

end ClassSugar
