import ClassSugar.Proofs.TokenRuns
import ClassSugar.Proofs.UnitLayout

/-!
# Bodies cover the code in their braces

The statements and members of a class body stand one after the other between its braces, and nothing
but semicolons stands outside of them. What the tree keeps as written is the text of the source at
its place.
-/

namespace ClassSugar

/-! ### Code that is kept -/

/-- The code is a run of the tokens among the leaves. -/
def Verbatim.WrittenIn (v : Verbatim) (xs : List Leaf) : Prop :=
  ∃ run, run ≠ [] ∧ run <:+: Leaf.tokens xs ∧ v = Verbatim.ofTokens run

theorem Verbatim.WrittenIn.mono {v : Verbatim} {xs ys : List Leaf} (h : v.WrittenIn xs)
    (hxs : xs <:+: ys) : v.WrittenIn ys := by
  obtain ⟨run, hne, hrun, hv⟩ := h
  exact ⟨run, hne, hrun.trans (hxs.filterMap _), hv⟩

theorem Verbatim.writtenIn_ofTokens {run : List Token} (hrun : run ≠ []) :
    (Verbatim.ofTokens run).WrittenIn (Leaf.ofTokens run) := by
  refine ⟨run.map Token.bare, ?_, ?_, (Verbatim.ofTokens_map_bare run).symm⟩
  · simpa using hrun
  · exact ⟨[], [], by simp⟩

/-- Code that a head keeps. -/
theorem Head.writtenIn_of_mem {test : Token → Bool} {run : List Token} {kept : List Kept}
    {lost : List Comment} {v : Verbatim} (h : Head test run kept lost) (hv : .code v ∈ kept) :
    v.WrittenIn (Leaf.ofTokens run) := by
  -- What is kept later on is written later on.
  have hlater : ∀ {rs run : List Token}, v.WrittenIn (Leaf.ofTokens run) →
      v.WrittenIn (Leaf.ofTokens (rs ++ run)) := by
    intro rs run hrun
    rw [Leaf.ofTokens_append]
    exact hrun.mono (List.suffix_append _ _).isInfix
  induction h with
  | nil => cases hv
  | @mark t run _ _ _ _ ih =>
    show v.WrittenIn (Leaf.ofTokens ([t] ++ run))
    exact hlater (ih hv)
  | joined _ _ ih | text _ _ ih | arguments _ _ _ ih =>
    exact hlater (ih ((List.mem_cons.mp hv).resolve_left nofun))
  | assertion _ _ ih => exact hlater (ih hv)
  | code hrs _ ih =>
    rcases List.mem_cons.mp hv with heq | hv
    · cases heq
      rw [Leaf.ofTokens_append]
      exact (Verbatim.writtenIn_ofTokens hrs).mono (List.prefix_append _ _).isInfix
    · exact hlater (ih hv)

/-- **Code that is kept stands in the source.** -/
theorem Lies.writtenIn_of_keeps {ns : List Node} {xs : List Leaf} {lost : List Comment}
    {v : Verbatim} (h : Lies ns xs lost) (hv : Node.Keeps ns (.code v)) : v.WrittenIn xs := by
  induction h with
  | nil => exact absurd hv Node.not_keeps_nil
  | comment hn _ ih =>
    rw [Node.keeps_cons, Node.keeps_comment hn] at hv
    exact (ih (hv.resolve_left nofun)).mono (List.suffix_cons _ _).isInfix
  | skip _ _ ih => exact (ih hv).mono (List.suffix_cons _ _).isInfix
  | code hrun hn _ ih =>
    rw [Node.keeps_cons, Node.keeps_code hn] at hv
    rcases hv with heq | hv
    · cases heq
      exact (Verbatim.writtenIn_ofTokens hrun.1).mono (List.prefix_append _ _).isInfix
    · exact (ih hv).mono (List.suffix_append _ _).isInfix
  | member _ hm _ hhead _ ih =>
    rw [Node.keeps_cons, Node.keeps_member hm] at hv
    rcases hv with (hv | hv) | hv
    · exact (hhead.writtenIn_of_mem hv).mono (List.prefix_append _ _).isInfix
    · exact absurd hv Node.not_keeps_nil
    · exact (ih hv).mono (List.suffix_append _ _).isInfix
  | @bodied _ _ ks _ run opening closing zs _ xs _ _ _ _ hm _ hhead _ _ _ _ hbody ih =>
    rw [Node.keeps_cons, Node.keeps_member hm] at hv
    rcases hv with (hv | hv) | hv
    · refine (hhead.writtenIn_of_mem hv).mono ?_
      exact ⟨[], ks.map .comment ++ .token opening :: zs ++ .token closing :: xs, by simp⟩
    · refine (hbody ?_).mono
        ⟨Leaf.ofTokens run ++ ks.map .comment ++ [.token opening], .token closing :: xs, by simp⟩
      -- The comments before the block keep no code.
      rw [Node.keeps_statements, Option.getD_some, List.flatMap_append, List.mem_append] at hv
      refine Node.keeps_statements.mpr (hv.resolve_left fun hmem => ?_)
      obtain ⟨s, hs, hmem⟩ := List.mem_flatMap.mp hmem
      obtain ⟨k, -, rfl⟩ := List.mem_map.mp hs
      cases List.mem_singleton.mp hmem
    · exact (ih hv).mono (List.suffix_append_of_suffix (List.suffix_cons _ _)).isInfix
  | @bodiless _ _ run semicolon _ xs _ _ _ hn _ _ hhead _ hbody _ ih =>
    rw [Node.keeps_cons, Node.keeps_declaration hn, hbody] at hv
    rcases hv with (hv | hv) | hv
    · exact (hhead.writtenIn_of_mem hv).mono ⟨[], semicolon.leaves ++ xs, by simp⟩
    · exact absurd hv Node.not_keeps_nil
    · exact (ih hv).mono (List.suffix_append _ _).isInfix
  | @braced _ _ run tail opening closing zs _ xs _ _ _ _ hn _ _ hhead _ _ _ _ _ hbody ih =>
    rw [Node.keeps_cons, Node.keeps_declaration hn] at hv
    rcases hv with (hv | hv) | hv
    · refine (hhead.writtenIn_of_mem hv).mono ?_
      exact ⟨[], opening.leaves ++ zs ++ .token closing :: Leaf.ofTokens tail ++ xs, by simp⟩
    · refine (hbody hv).mono ?_
      exact ⟨Leaf.ofTokens run ++ opening.leaves, .token closing :: Leaf.ofTokens tail ++ xs,
        by simp⟩
    · exact (ih hv).mono (List.suffix_append _ _).isInfix
  | directive _ _ _ ih =>
    rw [Node.keeps_cons] at hv
    exact (ih (hv.resolve_left (Node.not_keeps_directive _))).mono (List.suffix_append _ _).isInfix
  | @scope _ _ run opening closing zs _ xs _ _ _ _ _ _ _ _ _ hbody ih =>
    rw [Node.keeps_cons, Node.keeps_scope] at hv
    rcases hv with hv | hv
    · refine (hbody hv).mono ?_
      exact ⟨Leaf.ofTokens run ++ opening.leaves, .token closing :: xs, by simp⟩
    · exact (ih hv).mono (List.suffix_append_of_suffix (List.suffix_cons _ _)).isInfix
  | @fileScope _ _ run zs _ xs _ _ _ _ _ _ _ hbody ih =>
    rw [Node.keeps_cons, Node.keeps_scope] at hv
    rcases hv with hv | hv
    · exact (hbody hv).mono ⟨Leaf.ofTokens run, xs, by simp⟩
    · exact (ih hv).mono (List.suffix_append _ _).isInfix

/-! ### The items of a body -/

/-- Where an item of a body stands. Comments do not stand among the code. -/
def BodyItem.span? : BodyItem → Option Span
  | .member m => some m.span
  | .statement code => some code.span
  | .comment _ => none

/-- The items stand one after the other on the tokens, and the other tokens are semicolons. -/
inductive BodyItem.Tile : List BodyItem → List Token → Prop where
  | nil : Tile [] []
  | comment (text : Verbatim) {items : List BodyItem} {ts : List Token} (h : Tile items ts) :
      Tile (.comment text :: items) ts
  | skip {t : Token} {items : List BodyItem} {ts : List Token} (ht : t.isPunct ";" = true)
      (h : Tile items ts) : Tile items (t :: ts)
  | item {i : BodyItem} {run : List Token} {items : List BodyItem} {ts : List Token}
      (hrun : run ≠ []) (hspan : i.span? = some (Token.spanOf run)) (h : Tile items ts) :
      Tile (i :: items) (run ++ ts)

theorem BodyItem.span?_of_declaration? {i : BodyItem} {d : Declaration}
    (h : (Node.item i).declaration? = some d) : i.span? = some d.span := by
  unfold Node.declaration? at h
  split at h
  · rename_i heq
    cases heq
    cases h
    rfl
  · rename_i heq
    cases heq
  · cases h

namespace BodyItem.Tile

variable {items : List BodyItem} {ts : List Token}

/-- An item that stands on tokens, some of them perhaps without their comments. -/
theorem item_of_map_bare {i : BodyItem} {run : List Token} (run' : List Token) (hrun : run ≠ [])
    (hspan : i.span? = some (Token.spanOf run)) (hbare : run.map Token.bare = run'.map Token.bare)
    (h : Tile items ts) : Tile (i :: items) (run' ++ ts) := by
  refine .item ?_ (hspan.trans (congrArg some (Token.spanOf_congr hbare))) h
  rintro rfl
  exact hrun (List.map_eq_nil_iff.mp hbare)

/-- Comments make no difference to where items stand. -/
theorem of_map_bare {ts' : List Token} (h : Tile items ts)
    (hbare : ts'.map Token.bare = ts.map Token.bare) : Tile items ts' := by
  induction h generalizing ts' with
  | nil =>
    rw [List.map_eq_nil_iff.mp hbare]
    exact .nil
  | comment text _ ih => exact (ih hbare).comment text
  | skip ht _ ih =>
    obtain ⟨t', rest, rfl, ht', hrest⟩ := List.map_eq_cons_iff.mp hbare
    have hpunct : t'.bare.isPunct ";" = true := by rw [ht']; exact ht
    exact (ih hrest).skip hpunct
  | item hrun hspan _ ih =>
    rw [List.map_append] at hbare
    obtain ⟨run', rest, rfl, hrun', hrest⟩ := List.map_eq_append_iff.mp hbare
    exact item_of_map_bare run' hrun hspan hrun'.symm (ih hrest)

/-- The items of a body that lies on leaves. -/
theorem of_lies {xs : List Leaf} {lost : List Comment} (h : Lies (items.map .item) xs lost) :
    Tile items (Leaf.tokens xs) := by
  generalize hns : items.map Node.item = ns at h
  -- The induction is on how the nodes lie on the leaves. A node that covers tokens is an item
  -- whose span is theirs, and `item_of_map_bare` puts it before the items behind it.
  induction h generalizing items with
  | nil =>
    rw [List.map_eq_nil_iff] at hns
    rw [hns]
    exact .nil
  | comment hn _ ih =>
    obtain ⟨i, rest, rfl, rfl, rfl⟩ := List.map_eq_cons_iff.mp hns
    cases i with
    | comment text => exact (ih rfl).comment text
    | member m => cases hn
    | statement code => cases hn
  | skip ht _ ih => exact (ih hns).skip ht
  | @code _ run _ xs _ hrun hn _ ih =>
    obtain ⟨i, rest, rfl, rfl, rfl⟩ := List.map_eq_cons_iff.mp hns
    -- The code of an item is a statement or a member that is kept as written.
    have hspan : i.span? = some (Token.spanOf run) := by
      unfold Node.code? at hn
      split at hn
      · rename_i heq
        cases heq
      · rename_i code heq
        cases heq
        cases hn
        rfl
      · rename_i code heq
        cases heq
        cases hn
        rfl
      · rename_i heq
        cases heq
      · cases hn
    rw [Leaf.tokens_append]
    exact item_of_map_bare _ hrun.1 hspan (by simp) (ih rfl)
  | @member m _ run _ xs _ _ hrun hm hspan _ _ ih =>
    obtain ⟨i, rest, rfl, hi, rfl⟩ := List.map_eq_cons_iff.mp hns
    cases hi
    rw [Leaf.tokens_append]
    exact item_of_map_bare _ hrun.1 (congrArg some hspan) (by simp) (ih rfl)
  | @bodied m _ ks _ run opening closing zs _ xs _ _ _ hrun hm hspan _ _ _ _ _ _ ih =>
    obtain ⟨i, rest, rfl, hi, rfl⟩ := List.map_eq_cons_iff.mp hns
    cases hi
    have hne : run ++ opening :: Leaf.tokens zs ++ [closing] ≠ [] := by simp
    have hitem := item_of_map_bare (i := .member m)
      (run.map Token.bare ++ opening :: Leaf.tokens zs ++ [closing]) hne (congrArg some hspan)
      (by simp) (ih rfl)
    simpa using hitem
  | @bodiless _ d run semicolon _ xs _ _ hrun hn hsource hspan _ _ _ _ ih =>
    obtain ⟨i, rest, rfl, rfl, rfl⟩ := List.map_eq_cons_iff.mp hns
    have hd : i.span? = some (Token.spanOf (run ++ [semicolon])) := by
      rw [span?_of_declaration? hn, hspan, hsource]
      rfl
    have hne : run ++ [semicolon] ≠ [] := by simp
    rw [Leaf.tokens_append]
    exact item_of_map_bare _ hne hd (by simp) (ih rfl)
  | @braced _ d run tail opening closing zs _ xs _ _ _ hrun hn hsource hspan _ _ _ _ _ _ _ ih =>
    obtain ⟨i, rest, rfl, rfl, rfl⟩ := List.map_eq_cons_iff.mp hns
    have hd : i.span? =
        some (Token.spanOf (run ++ opening :: Leaf.tokens zs ++ closing :: tail)) := by
      rw [span?_of_declaration? hn, hspan, hsource]
      rfl
    have hne : run ++ opening :: Leaf.tokens zs ++ closing :: tail ≠ [] := by simp
    have hitem := item_of_map_bare (run.map Token.bare ++ opening.bare :: Leaf.tokens zs ++
      closing :: tail.map Token.bare) hne hd (by simp) (ih rfl)
    simpa using hitem
  -- These nodes are items of a file, and never items of a body.
  | directive | scope | fileScope =>
    obtain ⟨i, rest, rfl, hi, rfl⟩ := List.map_eq_cons_iff.mp hns
    cases hi

end BodyItem.Tile

/-! ### The order of items -/

/-- Tokens in the order of a source, each of which takes room. -/
structure Token.Ordered (ts : List Token) : Prop where
  pairwise : ts.Pairwise fun t u => t.span.hi ≤ u.span.lo
  lo_lt_hi : ∀ t ∈ ts, t.span.lo < t.span.hi

namespace Token.Ordered

variable {ts ts' : List Token}

theorem of_append (h : Ordered (ts ++ ts')) :
    Ordered ts ∧ Ordered ts' ∧ ∀ t ∈ ts, ∀ u ∈ ts', t.span.hi ≤ u.span.lo := by
  obtain ⟨hleft, hright, hbetween⟩ := List.pairwise_append.mp h.pairwise
  exact ⟨⟨hleft, fun t ht => h.lo_lt_hi t (List.mem_append_left _ ht)⟩,
    ⟨hright, fun t ht => h.lo_lt_hi t (List.mem_append_right _ ht)⟩, hbetween⟩

/-- The span of a run is that from its first token to its last, and all are inside. -/
theorem exists_spanOf (h : Ordered ts) (hne : ts ≠ []) :
    ∃ first ∈ ts, ∃ last ∈ ts, Token.spanOf ts = ⟨first.span.lo, last.span.hi⟩ ∧
      ∀ t ∈ ts, first.span.lo ≤ t.span.lo ∧ t.span.hi ≤ last.span.hi := by
  obtain ⟨first, rest, rfl⟩ := List.exists_cons_of_ne_nil hne
  obtain ⟨init, last, hlast⟩ := (List.eq_nil_or_concat (first :: rest)).resolve_left hne
  rw [List.concat_eq_append] at hlast
  have hmem : last ∈ first :: rest := hlast ▸ List.mem_append_right _ List.mem_cons_self
  refine ⟨first, List.mem_cons_self, last, hmem, ?_, fun t ht => ⟨?_, ?_⟩⟩
  · rw [Token.spanOf, List.head?_cons, hlast, List.getLast?_concat]
  · rcases List.mem_cons.mp ht with rfl | ht
    · exact Nat.le_refl _
    · have hafter := (List.pairwise_cons.mp h.pairwise).1 t ht
      have hfirst := h.lo_lt_hi first List.mem_cons_self
      omega
  · rw [hlast] at ht h
    rcases List.mem_append.mp ht with ht | ht
    · have hbefore := h.of_append.2.2 t ht last List.mem_cons_self
      have hlo := h.lo_lt_hi last (List.mem_append_right _ List.mem_cons_self)
      omega
    · rw [List.mem_singleton.mp ht]

end Token.Ordered

/-- The spans of the items are in order inside of the braces, and every token between the braces is
in one of them or a semicolon. -/
structure BodyItem.Fill (items : List BodyItem) (opening : Token) (inner : List Token)
    (closing : Token) : Prop where
  increasing : (items.filterMap BodyItem.span?).Pairwise fun a b => a.hi ≤ b.lo
  inside : ∀ s ∈ items.filterMap BodyItem.span?,
    opening.span.hi ≤ s.lo ∧ s.lo < s.hi ∧ s.hi ≤ closing.span.lo
  complete : ∀ t ∈ inner, t.isPunct ";" = true ∨
    ∃ s ∈ items.filterMap BodyItem.span?, s.lo ≤ t.span.lo ∧ t.span.hi ≤ s.hi

namespace BodyItem.Tile

variable {items : List BodyItem} {ts : List Token}

/-- **Items that stand on tokens are in order.** Each of them starts and ends with one of the
tokens. -/
theorem ordered (h : Tile items ts) (hts : Token.Ordered ts) :
    (items.filterMap span?).Pairwise (fun a b => a.hi ≤ b.lo) ∧
      (∀ s ∈ items.filterMap span?, s.lo < s.hi ∧
        ∃ t ∈ ts, ∃ u ∈ ts, s.lo = t.span.lo ∧ s.hi = u.span.hi) ∧
      ∀ t ∈ ts, t.isPunct ";" = true ∨
        ∃ s ∈ items.filterMap span?, s.lo ≤ t.span.lo ∧ t.span.hi ≤ s.hi := by
  induction h with
  | nil => exact ⟨.nil, nofun, nofun⟩
  | comment text _ ih => exact ih hts
  | @skip t items ts ht _ ih =>
    have hrest : Token.Ordered ([t] ++ ts) := hts
    obtain ⟨hpairs, hends, hcovers⟩ := ih hrest.of_append.2.1
    refine ⟨hpairs, fun s hs => ?_, List.forall_mem_cons.mpr ⟨.inl ht, hcovers⟩⟩
    obtain ⟨hlt, u, hu, v, hv, hlo, hhi⟩ := hends s hs
    exact ⟨hlt, u, List.mem_cons_of_mem t hu, v, List.mem_cons_of_mem t hv, hlo, hhi⟩
  | @item i run items ts hrun hspan _ ih =>
    obtain ⟨hfirst, hrest, hbetween⟩ := hts.of_append
    obtain ⟨hpairs, hends, hcovers⟩ := ih hrest
    obtain ⟨t, ht, u, hu, hspanOf, hinside⟩ := hfirst.exists_spanOf hrun
    rw [List.filterMap_cons_some hspan]
    refine ⟨List.pairwise_cons.mpr ⟨fun s hs => ?_, hpairs⟩, ?_, ?_⟩
    · -- A later item starts with a later token.
      obtain ⟨-, v, hv, -, -, hlo, -⟩ := hends s hs
      rw [hspanOf, hlo]
      exact hbetween u hu v hv
    · refine List.forall_mem_cons.mpr ⟨⟨?_, t, List.mem_append_left _ ht, u,
        List.mem_append_left _ hu, by rw [hspanOf], by rw [hspanOf]⟩, ?_⟩
      · rw [hspanOf]
        exact Nat.lt_of_lt_of_le (hfirst.lo_lt_hi t ht) (hinside t ht).2
      · intro s hs
        obtain ⟨hlt, v, hv, w, hw, hlo, hhi⟩ := hends s hs
        exact ⟨hlt, v, List.mem_append_right _ hv, w, List.mem_append_right _ hw, hlo, hhi⟩
    · intro v hv
      rcases List.mem_append.mp hv with hv | hv
      · refine .inr ⟨_, List.mem_cons_self, ?_⟩
        rw [hspanOf]
        exact hinside v hv
      · refine (hcovers v hv).imp_right ?_
        rintro ⟨s, hs, hcover⟩
        exact ⟨s, List.mem_cons_of_mem _ hs, hcover⟩

/-- Items that stand on the tokens between two braces fill them. -/
theorem fill {opening closing : Token} (h : Tile items ts)
    (hts : Token.Ordered (opening :: ts ++ [closing])) : Fill items opening ts closing := by
  have hall : Token.Ordered ([opening] ++ ts ++ [closing]) := hts
  obtain ⟨hfront, -, hclosing⟩ := hall.of_append
  obtain ⟨-, hinner, hopening⟩ := hfront.of_append
  obtain ⟨hpairs, hends, hcovers⟩ := h.ordered hinner
  refine ⟨hpairs, fun s hs => ?_, hcovers⟩
  obtain ⟨hlt, t, ht, u, hu, hlo, hhi⟩ := hends s hs
  rw [hlo] at hlt ⊢
  rw [hhi] at hlt ⊢
  exact ⟨hopening opening List.mem_cons_self t ht, hlt,
    hclosing u (List.mem_cons_of_mem _ hu) closing List.mem_cons_self⟩

end BodyItem.Tile

/-! ### Where declarations stand -/

/-- A head is one with or without the comments before its tokens. -/
theorem IsHead.of_map_bare {test : Token → Bool} {run run' : List Token} {kept : List Kept}
    (h : IsHead test run kept) (htest : ∀ t, test t.bare = test t)
    (hbare : run'.map Token.bare = run.map Token.bare) : IsHead test run' kept := by
  obtain ⟨lost, h⟩ := h
  -- Each part of the head is kept without comments, so it is the same part of the other tokens.
  induction h generalizing run' with
  | nil =>
    rw [List.map_eq_nil_iff.mp hbare]
    exact .nil
  | @mark t run kept lost ht h ih =>
    obtain ⟨t', rest, rfl, ht', hrest⟩ := List.map_eq_cons_iff.mp hbare
    rw [← htest, ← ht', htest] at ht
    exact (IsHead.mark ht).append (ih hrest)
  | @joined rs run kept lost h ih =>
    rw [List.map_append] at hbare
    obtain ⟨rs', rest, rfl, hrs, hrest⟩ := List.map_eq_append_iff.mp hbare
    rw [← Token.join_map_bare, ← hrs, Token.join_map_bare]
    exact (IsHead.joined rs').append (ih hrest)
  | @code rs run kept lost hne h ih =>
    rw [List.map_append] at hbare
    obtain ⟨rs', rest, rfl, hrs, hrest⟩ := List.map_eq_append_iff.mp hbare
    rw [← Verbatim.ofTokens_congr hrs]
    refine (IsHead.code ?_).append (ih hrest)
    rintro rfl
    exact hne (List.map_eq_nil_iff.mp hrs.symm)
  | @text rs run kept lost h ih =>
    rw [List.map_append] at hbare
    obtain ⟨rs', rest, rfl, hrs, hrest⟩ := List.map_eq_append_iff.mp hbare
    rw [← Token.spell_map_bare, ← hrs, Token.spell_map_bare]
    exact (IsHead.text rs').append (ih hrest)
  | @arguments rs keyword run kept lost hkeyword h ih =>
    rw [List.map_append] at hbare
    obtain ⟨rs', rest, rfl, hrs, hrest⟩ := List.map_eq_append_iff.mp hbare
    rw [← Token.spell_map_bare rs, ← hrs, Token.spell_map_bare]
    exact (IsHead.arguments rs' hkeyword).append (ih hrest)
  | @assertion rs run kept lost hassertion h ih =>
    rw [List.map_append] at hbare
    obtain ⟨rs', rest, rfl, hrs, hrest⟩ := List.map_eq_append_iff.mp hbare
    rw [← Token.spell_map_bare, ← hrs, Token.spell_map_bare] at hassertion
    exact (IsHead.assertion hassertion).append (ih hrest)

/-- A declaration stands on tokens: a head and a semicolon, or a head and then its items in braces,
and perhaps a semicolon. A head has no opening brace of its own, so the braces are those of the
body. -/
inductive Declaration.StandsOn (d : Declaration) : List Token → Prop where
  | bodiless {head : List Token} {semicolon : Token}
      (hhead : IsHead Token.isHeadMark head d.toHeader.kept)
      (hend : semicolon.isPunct ";" = true) (hbody : d.body = []) :
      StandsOn d (head ++ [semicolon])
  | braced {head inner tail : List Token} {opening closing : Token}
      (hhead : IsHead Token.isHeadMark head d.toHeader.kept)
      (hopen : opening.isPunct "\x7b" = true) (hitems : BodyItem.Tile d.body inner)
      (hclose : closing.isPunct "\x7d" = true)
      (htail : tail = [] ∨ ∃ semicolon, tail = [semicolon] ∧ semicolon.isPunct ";" = true) :
      StandsOn d (head ++ opening :: inner ++ closing :: tail)

/-- The tokens of a declaration, as far as they are among the leaves. -/
def Declaration.StandsIn (d : Declaration) (xs : List Leaf) : Prop :=
  ∃ run, run ≠ [] ∧ run <:+: Leaf.tokens xs ∧ d.StandsOn run ∧
    d.source = Verbatim.ofTokens run ∧ d.span = d.source.span

theorem Declaration.StandsIn.mono {d : Declaration} {xs ys : List Leaf} (h : d.StandsIn xs)
    (hxs : xs <:+: ys) : d.StandsIn ys := by
  obtain ⟨run, hne, hrun, hd⟩ := h
  exact ⟨run, hne, hrun.trans (hxs.filterMap _), hd⟩

theorem Declaration.StandsOn.of_map_bare {d : Declaration} {run run' : List Token}
    (h : d.StandsOn run) (hbare : run'.map Token.bare = run.map Token.bare) : d.StandsOn run' := by
  have htest : ∀ t : Token, t.bare.isHeadMark = t.isHeadMark := fun _ => rfl
  cases h with
  | bodiless hhead hend hbody =>
    rw [List.map_append] at hbare
    obtain ⟨head, back, rfl, hhead', hback⟩ := List.map_eq_append_iff.mp hbare
    obtain ⟨semicolon', rest, rfl, hsame, hrest⟩ := List.map_eq_cons_iff.mp hback
    have hpunct : semicolon'.bare.isPunct ";" = true := by rw [hsame]; exact hend
    rw [List.map_eq_nil_iff.mp hrest]
    exact .bodiless (hhead.of_map_bare htest hhead') hpunct hbody
  | braced hhead hopen hitems hclose htail =>
    simp only [List.map_append, List.map_cons] at hbare
    obtain ⟨front, back, rfl, hfront, hback⟩ := List.map_eq_append_iff.mp hbare
    obtain ⟨head, body, rfl, hhead', hbody⟩ := List.map_eq_append_iff.mp hfront
    obtain ⟨opening', inner', rfl, hopening, hinner⟩ := List.map_eq_cons_iff.mp hbody
    obtain ⟨closing', tail', rfl, hclosing, htail'⟩ := List.map_eq_cons_iff.mp hback
    have hopen' : opening'.bare.isPunct "\x7b" = true := by rw [hopening]; exact hopen
    have hclose' : closing'.bare.isPunct "\x7d" = true := by rw [hclosing]; exact hclose
    refine .braced (hhead.of_map_bare htest hhead') hopen' (hitems.of_map_bare hinner) hclose' ?_
    rcases htail with rfl | ⟨semicolon, rfl, hsemicolon⟩
    · exact .inl (List.map_eq_nil_iff.mp htail')
    · obtain ⟨semicolon', rest, rfl, hsame, hrest⟩ := List.map_eq_cons_iff.mp htail'
      have hpunct : semicolon'.bare.isPunct ";" = true := by rw [hsame]; exact hsemicolon
      exact .inr ⟨semicolon', by rw [List.map_eq_nil_iff.mp hrest], hpunct⟩

/-- **Every declaration stands among the leaves.** -/
theorem Lies.standsIn_of_mem {ns : List Node} {xs : List Leaf} {lost : List Comment}
    {d : Declaration} (h : Lies ns xs lost) (hd : d ∈ ns.flatMap Node.declarations) :
    d.StandsIn xs := by
  induction h with
  | nil => cases hd
  | comment hn _ ih =>
    rw [List.flatMap_cons, (Node.of_comment? hn).2] at hd
    exact (ih hd).mono (List.suffix_cons _ _).isInfix
  | skip _ _ ih => exact (ih hd).mono (List.suffix_cons _ _).isInfix
  | code _ hn _ ih =>
    rw [List.flatMap_cons, (Node.of_code? hn).2] at hd
    exact (ih hd).mono (List.suffix_append _ _).isInfix
  | member _ hm _ _ _ ih =>
    rw [List.flatMap_cons, (Node.of_parts hm).2] at hd
    exact (ih hd).mono (List.suffix_append _ _).isInfix
  | bodied _ hm _ _ _ _ _ _ _ ih =>
    rw [List.flatMap_cons, (Node.of_parts hm).2] at hd
    exact (ih hd).mono (List.suffix_append_of_suffix (List.suffix_cons _ _)).isInfix
  | @bodiless _ d' run semicolon _ xs _ _ hrun hn hsource hspan hhead hend hbody _ ih =>
    rw [List.flatMap_cons, (Node.of_declaration? hn).2, hbody] at hd
    rcases List.mem_cons.mp hd with rfl | hd
    · have hstands : d.StandsOn (run ++ [semicolon]) := .bodiless ⟨_, hhead⟩ hend hbody
      refine ⟨(run ++ [semicolon]).map Token.bare, by simp, ⟨[], Leaf.tokens xs, by simp⟩,
        hstands.of_map_bare (by simp), ?_, hspan⟩
      rw [hsource, Verbatim.ofTokens_map_bare]
    · exact (ih hd).mono (List.suffix_append _ _).isInfix
  | @braced _ d' run tail opening closing zs _ xs _ _ _ hrun hn hsource hspan hhead hopen hlies
      hclose htail _ hbody ih =>
    rw [List.flatMap_cons, (Node.of_declaration? hn).2, List.cons_append, List.mem_cons,
      List.mem_append] at hd
    rcases hd with rfl | hd | hd
    · -- The declaration itself. Among the leaves its tokens have lost their comments.
      have hstands : d.StandsOn (run ++ opening :: Leaf.tokens zs ++ closing :: tail) :=
        .braced ⟨_, hhead⟩ hopen (.of_lies hlies) hclose htail
      refine ⟨run.map Token.bare ++ opening.bare :: Leaf.tokens zs ++ closing ::
        tail.map Token.bare, by simp, ⟨[], Leaf.tokens xs, by simp⟩,
        hstands.of_map_bare (by simp), ?_, hspan⟩
      rw [hsource]
      apply Verbatim.ofTokens_congr
      simp
    · -- One nested in it.
      refine (hbody ?_).mono ⟨Leaf.ofTokens run ++ opening.leaves,
        .token closing :: Leaf.ofTokens tail ++ xs, by simp⟩
      rw [BodyItem.declarations_eq_flatMap] at hd
      rw [List.flatMap_map]
      exact hd
    · exact (ih hd).mono (List.suffix_append _ _).isInfix
  | directive _ _ _ ih =>
    rw [List.flatMap_cons, Node.declarations, Item.declarations] at hd
    exact (ih hd).mono (List.suffix_append _ _).isInfix
  | @scope _ items run opening closing zs _ xs _ _ _ _ _ _ _ _ _ hbody ih =>
    rw [List.flatMap_cons, Node.declarations, Item.declarations, List.mem_append] at hd
    rcases hd with hd | hd
    · refine (hbody ?_).mono
        ⟨Leaf.ofTokens run ++ opening.leaves, .token closing :: xs, by simp⟩
      rw [Item.declarationsOf_eq_flatMap] at hd
      rw [List.flatMap_map]
      exact hd
    · exact (ih hd).mono (List.suffix_append_of_suffix (List.suffix_cons _ _)).isInfix
  | @fileScope _ items run zs _ xs _ _ _ _ _ _ _ hbody ih =>
    rw [List.flatMap_cons, Node.declarations, Item.declarations, List.mem_append] at hd
    rcases hd with hd | hd
    · refine (hbody ?_).mono ⟨Leaf.ofTokens run, xs, by simp⟩
      rw [Item.declarationsOf_eq_flatMap] at hd
      rw [List.flatMap_map]
      exact hd
    · exact (ih hd).mono (List.suffix_append _ _).isInfix

/-! ### Where the code stands in the source -/

section Source

variable {source : String} {base : Nat} {ts : List Token}

theorem Token.sublist_spans (ts : List Token) : (ts.map Token.span).Sublist (Token.spans ts) := by
  induction ts with
  | nil => exact .slnil
  | cons t ts ih =>
    have hfirst : List.Sublist [t.span] (t.leading.map Comment.span ++ [t.span]) :=
      List.sublist_append_right _ _
    exact hfirst.append ih

/-- The tokens of a source that do not end it are in order. -/
theorem Token.ordered_of_tokenize {front back : List Token}
    (h : Token.tokenize source base = .ok (front ++ back)) (hback : back ≠ []) :
    Token.Ordered front := by
  have hpairs := (Token.pairwise_spans h).sublist (Token.sublist_spans _)
  rw [List.map_append] at hpairs
  refine ⟨List.pairwise_map.mp (List.pairwise_append.mp hpairs).1, fun t ht => ?_⟩
  have hend := Token.isEof_eq_false_of_mem_left h hback t ht
  obtain ⟨text, hne, -, hcovers⟩ := Token.covers_of_mem h (List.mem_append_left _ ht) hend
  exact hcovers.lo_lt_hi hne

/-- A run among the tokens that a tree lies on is one of the source. -/
theorem Token.exists_run_of_isInfix {zs run : List Token} {eof : Token}
    (h : Token.tokenize source base = .ok ts) (hts : ts.map Token.bare = zs ++ [eof])
    (hrun : run <:+: zs) :
    ∃ run', run' <:+: ts ∧ run'.map Token.bare = run ∧ Token.Ordered run' := by
  obtain ⟨front, back, rfl, hfront, hback⟩ := List.map_eq_append_iff.mp hts
  obtain ⟨before, after, rfl⟩ := hrun
  obtain ⟨most, after', rfl, hmost, -⟩ := List.map_eq_append_iff.mp hfront
  obtain ⟨before', run', rfl, -, hrun'⟩ := List.map_eq_append_iff.mp hmost
  have hne : back ≠ [] := by
    rintro rfl
    cases hback
  have hordered := (Token.ordered_of_tokenize h hne).of_append.1
  refine ⟨run', ⟨before', after' ++ back, by simp⟩, hrun', hordered.of_append.2.1⟩

/-- Code among the leaves is the text of the source at its place. -/
theorem Verbatim.WrittenIn.textIn_eq {v : Verbatim} {xs : List Leaf} {eof : Token}
    (hv : v.WrittenIn xs) (h : Token.tokenize source base = .ok ts)
    (hts : ts.map Token.bare = Leaf.tokens xs ++ [eof]) :
    v.span.textIn source base = v.text := by
  obtain ⟨run, hne, hrun, rfl⟩ := hv
  obtain ⟨run', hrun', rfl, -⟩ := Token.exists_run_of_isInfix h hts hrun
  rw [Verbatim.ofTokens_map_bare]
  exact Token.textIn_spanOf h hrun' fun hnil => hne (by rw [hnil, List.map_nil])

/-- A declaration is faithful to a source with these tokens: the code it keeps is that of the
source, it spans a run of the tokens, and if it has braces then its items fill them. -/
structure Declaration.Faithful (d : Declaration) (source : String) (base : Nat)
    (ts : List Token) : Prop where
  span_source : d.source.span = d.span
  texts : ∀ v, v = d.source ∨ .code v ∈ d.kept → v.span.textIn source base = v.text
  stands : ∃ run, run <:+: ts ∧ d.span = Token.spanOf run ∧
    ((∃ head semicolon, run = head ++ [semicolon] ∧
        IsHead Token.isHeadMark head d.toHeader.kept ∧ semicolon.isPunct ";" = true ∧
        d.body = []) ∨
      ∃ head opening inner closing tail, run = head ++ opening :: inner ++ closing :: tail ∧
        IsHead Token.isHeadMark head d.toHeader.kept ∧ opening.isPunct "\x7b" = true ∧
        BodyItem.Fill d.body opening inner closing ∧ closing.isPunct "\x7d" = true ∧
        (tail = [] ∨ ∃ semicolon, tail = [semicolon] ∧ semicolon.isPunct ";" = true))

/-- **Class bodies lose no code and repeat none.** -/
theorem CompilationUnit.faithful_of_parse {ext : Extensions} {u : CompilationUnit} {d : Declaration}
    (h : CompilationUnit.parse ext source base = .ok u) (hd : d ∈ u.declarations) :
    ∃ ts, Token.tokenize source base = .ok ts ∧ d.Faithful source base ts := by
  obtain ⟨ts, xs, ks, lost, eof, htokenize, -, hthins, hlies, -⟩ := CompilationUnit.parse_lays h
  have hts := hthins.map_bare_eq
  have hmem : d ∈ (u.items.map Node.top).flatMap Node.declarations := by
    rw [CompilationUnit.declarations, Item.declarationsOf_eq_flatMap] at hd
    rw [List.flatMap_map]
    exact hd
  obtain ⟨run, hne, hinfix, hstands, hsource, hspan⟩ := hlies.standsIn_of_mem hmem
  have hwritten : d.source.WrittenIn xs := ⟨run, hne, hinfix, hsource⟩
  obtain ⟨run', hinfix', rfl, hordered⟩ := Token.exists_run_of_isInfix htokenize hts hinfix
  refine ⟨ts, htokenize, hspan.symm, ?_, run', hinfix', ?_, ?_⟩
  · -- Code among the leaves is code of the source.
    rintro v (rfl | hv)
    · exact hwritten.textIn_eq htokenize hts
    · exact (hlies.writtenIn_of_keeps (.inr ⟨d, hmem, hv⟩)).textIn_eq htokenize hts
  · rw [hspan, hsource, ← Token.spanOf_map_bare]
    rfl
  · have hstands' : d.StandsOn run' := hstands.of_map_bare (by simp)
    cases hstands' with
    | @bodiless head semicolon hhead hend hbody =>
      exact .inl ⟨head, semicolon, rfl, hhead, hend, hbody⟩
    | @braced head inner tail opening closing hhead hopen hitems hclose htail =>
      refine .inr ⟨head, opening, inner, closing, tail, rfl, hhead, hopen, hitems.fill ?_, hclose,
        htail⟩
      -- The braces and what they hold are in order, since the whole run is.
      have hall : Token.Ordered (head ++ (opening :: inner ++ [closing]) ++ tail) := by
        simpa using hordered
      exact hall.of_append.1.of_append.2.1

end Source

end ClassSugar
