import ClassSugar.Proofs.BodyCoverage

/-!
# Comments of a source and of its tree

A comment, or a directive of the preprocessor, stands before some token. In the tree it is an item
of its own, or it stands inside of a text that is kept as it was written (`HasComment`). There are
two exceptions, and no others (`comments_kept`):

* comments in the head of a declaration, a member, a namespace or a `using` directive, outside of
  the texts that are kept from it. `Lies` lists them, place by place;
* comments that were taken while an item was tried as a member, behind the item (`Abandoned`).

The argument walks through the layout of the tree: every leaf that is a comment is kept or is in the
list (`Lies.accounts`). A comment that stands between two tokens of a run stands inside of its span,
since the spans of comments and tokens are in the order of the source.
-/

namespace ClassSugar

/-- What is kept is the text, and it comes from the span if it says where it comes from. The
arguments of another constructor are kept with its keyword. -/
def Kept.Quotes (kept : Kept) (s : Span) (text : String) : Prop :=
  match kept with
  | .code v => v.span = s ∧ v.text = text
  | .text t => t = text ∨
      ∃ keyword, (keyword = "base" ∨ keyword = "this") ∧ t = keyword ++ "(" ++ text ++ ")"
  | .comment _ => False
  | .joined _ => False

/-! ### Comments among leaves -/

theorem Leaf.comment_mem_ofTokens {k : Comment} {ts : List Token} :
    .comment k ∈ Leaf.ofTokens ts ↔ k ∈ ts.flatMap Token.leading := by
  induction ts with
  | nil => exact iff_of_false List.not_mem_nil List.not_mem_nil
  | cons t ts ih =>
    rw [Leaf.ofTokens_cons, List.mem_append, ih, List.flatMap_cons, List.mem_append, Token.leaves]
    simp

/-- A comment of a run stands before it or between two of its tokens. -/
theorem Token.mem_commentsBefore_or {k : Comment} {rs : List Token}
    (hk : k ∈ rs.flatMap Token.leading) :
    k ∈ Token.commentsBefore rs ∨ k ∈ rs.tail.flatMap Token.leading := by
  cases rs with
  | nil => cases hk
  | cons t rs => exact List.mem_append.mp hk

/-- Every comment of the leaves is in the list, or it is kept as an item of its own, or it stands
between two tokens of a run that is kept. -/
def Accounts (keeps : Kept → Prop) (xs : List Leaf) (lost : List Comment) : Prop :=
  ∀ k, .comment k ∈ xs → k ∈ lost ∨ keeps (.comment (Verbatim.ofComment k)) ∨
    ∃ kept rs, keeps kept ∧ kept.Quotes (Token.spanOf rs) (Token.spell rs) ∧
      k ∈ rs.tail.flatMap Token.leading ∧ Leaf.ofTokens rs <:+: xs

namespace Accounts

variable {keeps keeps' : Kept → Prop} {xs ys : List Leaf} {lost lost' : List Comment}

theorem nil : Accounts keeps [] [] :=
  fun _ hk => absurd hk List.not_mem_nil

theorem mono (hkeeps : ∀ kept, keeps kept → keeps' kept) (h : Accounts keeps xs lost) :
    Accounts keeps' xs lost := by
  intro k hk
  rcases h k hk with hk | hk | ⟨kept, rs, hkept, hrs⟩
  · exact .inl hk
  · exact .inr (.inl (hkeeps _ hk))
  · exact .inr (.inr ⟨kept, rs, hkeeps kept hkept, hrs⟩)

theorem append (h : Accounts keeps xs lost) (h' : Accounts keeps ys lost') :
    Accounts keeps (xs ++ ys) (lost ++ lost') := by
  intro k hk
  rcases List.mem_append.mp hk with hk | hk
  · rcases h k hk with hk | hk | ⟨kept, rs, hkept, hquotes, hk, hrs⟩
    · exact .inl (List.mem_append_left _ hk)
    · exact .inr (.inl hk)
    · exact .inr (.inr ⟨kept, rs, hkept, hquotes, hk, hrs.trans (List.prefix_append _ _).isInfix⟩)
  · rcases h' k hk with hk | hk | ⟨kept, rs, hkept, hquotes, hk, hrs⟩
    · exact .inl (List.mem_append_right _ hk)
    · exact .inr (.inl hk)
    · exact .inr (.inr ⟨kept, rs, hkept, hquotes, hk, hrs.trans (List.suffix_append _ _).isInfix⟩)

/-- Nothing is kept in what is written anew. -/
theorem of_joined {name : String} (h : Accounts (· ∈ [.joined name]) xs lost) :
    Accounts keeps xs lost := by
  intro k hk
  rcases h k hk with hk | hk | ⟨kept, rs, hkept, hquotes, -⟩
  · exact .inl hk
  · cases List.mem_singleton.mp hk
  · rw [List.mem_singleton.mp hkept] at hquotes
    exact hquotes.elim

theorem token (t : Token) : Accounts keeps [.token t] [] :=
  fun _ hk => nomatch List.mem_singleton.mp hk

/-- Comments that are items of their own. -/
theorem comments {ks : List Comment} (h : ∀ k ∈ ks, keeps (.comment (Verbatim.ofComment k))) :
    Accounts keeps (ks.map .comment) [] := by
  intro k hk
  obtain ⟨k', hk', heq⟩ := List.mem_map.mp hk
  cases heq
  exact .inr (.inl (h k hk'))

/-- Tokens that are not kept lose all comments. -/
theorem unkept (ts : List Token) : Accounts keeps (Leaf.ofTokens ts) (ts.flatMap Token.leading) :=
  fun _ hk => .inl (Leaf.comment_mem_ofTokens.mp hk)

/-- A run that is kept loses only the comments before it. -/
theorem run {kept : Kept} {rs : List Token} (hkept : keeps kept)
    (hquotes : kept.Quotes (Token.spanOf rs) (Token.spell rs)) :
    Accounts keeps (Leaf.ofTokens rs) (Token.commentsBefore rs) := by
  intro k hk
  rcases Token.mem_commentsBefore_or (Leaf.comment_mem_ofTokens.mp hk) with hk | hk
  · exact .inl hk
  · exact .inr (.inr ⟨kept, rs, hkept, hquotes, hk, List.infix_refl _⟩)

end Accounts

/-- **Heads account for their comments.** -/
theorem Head.accounts {test : Token → Bool} {run : List Token} {kept : List Kept}
    {lost : List Comment} (h : Head test run kept lost) :
    Accounts (· ∈ kept) (Leaf.ofTokens run) lost := by
  -- A part that is kept in front of what is accounted for already.
  have hcons : ∀ {rs run : List Token} {x : Kept} {kept : List Kept} {lost : List Comment},
      x.Quotes (Token.spanOf rs) (Token.spell rs) → Accounts (· ∈ kept) (Leaf.ofTokens run) lost →
        Accounts (· ∈ x :: kept) (Leaf.ofTokens (rs ++ run)) (Token.commentsBefore rs ++ lost) := by
    intro rs run x kept lost hquotes h
    rw [Leaf.ofTokens_append]
    exact (Accounts.run List.mem_cons_self hquotes).append
      (h.mono fun _ hmem => List.mem_cons_of_mem _ hmem)
  induction h with
  | nil => exact .nil
  | @mark t run _ _ _ _ ih =>
    have hall := (Accounts.unkept [t]).append ih
    rw [← Leaf.ofTokens_append, List.flatMap_singleton] at hall
    exact hall
  | joined rs _ ih =>
    rw [Leaf.ofTokens_append]
    exact (Accounts.unkept rs).append (ih.mono fun _ hmem => List.mem_cons_of_mem _ hmem)
  | code _ _ ih => exact hcons ⟨rfl, rfl⟩ ih
  | text rs _ ih => exact hcons (.inl rfl) ih
  | @arguments rs keyword _ _ _ hkeyword _ ih => exact hcons (.inr ⟨keyword, hkeyword, rfl⟩) ih
  | @assertion rs _ _ _ _ _ ih =>
    rw [Leaf.ofTokens_append]
    exact (Accounts.unkept rs).append ih

/-- **A layout accounts for every comment among its leaves.** -/
theorem Lies.accounts {ns : List Node} {xs : List Leaf} {lost : List Comment}
    (h : Lies ns xs lost) : Accounts (Node.Keeps ns) xs lost := by
  -- A node in front of what is accounted for already.
  have hcons : ∀ {n : Node} {ns : List Node} {ys xs : List Leaf} {ks lost : List Comment},
      Accounts (Node.Keeps [n]) ys ks → Accounts (Node.Keeps ns) xs lost →
        Accounts (Node.Keeps (n :: ns)) (ys ++ xs) (ks ++ lost) := by
    intro n ns ys xs ks lost hfirst hrest
    exact (hfirst.mono fun _ hkept => Node.keeps_cons.mpr (.inl hkept)).append
      (hrest.mono fun _ hkept => Node.keeps_cons.mpr (.inr hkept))
  induction h with
  | nil => exact .nil
  | @comment n k _ _ _ hn _ ih =>
    have hkeeps : ∀ k' ∈ [k], Node.Keeps [n] (.comment (Verbatim.ofComment k')) := by
      intro k' hk'
      rw [Node.keeps_comment hn, List.mem_singleton.mp hk']
    exact hcons (.comments hkeeps) ih
  | skip _ _ ih => exact (Accounts.token _).append ih
  | code hrun hn _ ih =>
    have hfirst := Accounts.run ((Node.keeps_code hn).mpr rfl) ⟨rfl, rfl⟩
    rw [hrun.2] at hfirst
    exact hcons hfirst ih
  | member _ hm _ hhead _ ih =>
    exact hcons (hhead.accounts.mono fun _ hkept => (Node.keeps_member hm).mpr (.inl hkept)) ih
  | @bodied m _ ks stmts run opening closing zs _ xs _ _ lost₂ _ hm _ hhead _ _ _ _ hbody ih =>
    have hhead' := hhead.accounts.mono fun _ hkept => (Node.keeps_member hm).mpr (.inl hkept)
    -- Comments before the brace are the first statements.
    have hbefore : ∀ k ∈ ks, Node.Keeps [.item (.member m)] (.comment (Verbatim.ofComment k)) := by
      intro k hk
      refine (Node.keeps_member hm).mpr (.inr (Node.keeps_statements.mpr ?_))
      refine List.mem_flatMap.mpr ⟨_, List.mem_append_left _ (List.mem_map_of_mem hk), ?_⟩
      exact List.mem_singleton_self _
    have hbody' : Accounts (Node.Keeps [.item (.member m)]) zs lost₂ := by
      refine hbody.mono fun kept hkept => (Node.keeps_member hm).mpr (.inr ?_)
      rw [Node.keeps_statements] at hkept ⊢
      rw [Option.getD_some, List.flatMap_append]
      exact List.mem_append_right _ hkept
    have hall := hcons ((((hhead'.append (.comments hbefore)).append (.token opening)).append
      hbody').append (.token closing)) ih
    simpa using hall
  | @bodiless _ _ run semicolon _ xs _ _ _ hn _ _ hhead _ _ _ ih =>
    have hhead' := hhead.accounts.mono fun _ hkept =>
      (Node.keeps_declaration hn).mpr (.inl hkept)
    have hall := hcons (hhead'.append (.unkept [semicolon])) ih
    simpa using hall
  | @braced _ _ run tail opening closing zs _ xs _ _ _ _ hn _ _ hhead _ _ _ _ _ hbody ih =>
    have hhead' := hhead.accounts.mono fun _ hkept =>
      (Node.keeps_declaration hn).mpr (.inl hkept)
    have hbody' := hbody.mono fun _ hkept => (Node.keeps_declaration hn).mpr (.inr hkept)
    have hall := hcons ((((hhead'.append (.unkept [opening])).append hbody').append
      (.token closing)).append (.unkept tail)) ih
    simpa using hall
  | directive _ hhead _ ih => exact hcons hhead.accounts.of_joined ih
  | @scope name items run opening closing zs _ xs _ _ lost₂ _ hhead _ _ _ _ hbody ih =>
    have hbody' : Accounts (Node.Keeps [.top (.scope name false items)]) zs lost₂ :=
      hbody.mono fun _ hkept => Node.keeps_scope.mpr hkept
    have hall := hcons (((hhead.accounts.of_joined.append (.unkept [opening])).append hbody').append
      (.token closing)) ih
    simpa using hall
  | @fileScope name items _ zs _ _ _ _ lost₂ _ hhead _ _ hbody ih =>
    have hbody' : Accounts (Node.Keeps [.top (.scope name true items)]) zs lost₂ :=
      hbody.mono fun _ hkept => Node.keeps_scope.mpr hkept
    exact hcons (hhead.accounts.of_joined.append hbody') ih

/-! ### Comments inside of a span -/

/-- Where a leaf stands. -/
def Leaf.span : Leaf → Span
  | .comment k => k.span
  | .token t => t.span

theorem Leaf.map_span_ofTokens (ts : List Token) :
    (Leaf.ofTokens ts).map Leaf.span = Token.spans ts := by
  rw [Leaf.ofTokens, Token.spans, List.map_flatMap]
  refine congrArg (ts.flatMap ·) (funext fun t => ?_)
  rw [Token.leaves, List.map_append, List.map_map]
  rfl

theorem Thins.sublist {ks : List Comment} {xs ys : List Leaf} (h : Thins ks xs ys) :
    ys.Sublist xs := by
  induction h with
  | nil => exact .slnil
  | cons x _ ih => exact ih.cons_cons x
  | drop _ _ ih => exact ih.cons _

/-- A comment between two tokens of a run is inside of the span of the run. -/
theorem Token.inside_spanOf {rs : List Token} {k : Comment}
    (hpairs : (Token.spans rs).Pairwise fun a b => a.hi ≤ b.lo)
    (hle : ∀ s ∈ Token.spans rs, s.lo ≤ s.hi) (hk : k ∈ rs.tail.flatMap Token.leading) :
    (Token.spanOf rs).lo ≤ k.span.lo ∧ k.span.hi ≤ (Token.spanOf rs).hi := by
  cases rs with
  | nil => cases hk
  | cons first rest =>
    obtain ⟨t, ht, hleading⟩ := List.mem_flatMap.mp hk
    obtain ⟨init, last, rfl⟩ := (List.eq_nil_or_concat rest).resolve_left (List.ne_nil_of_mem ht)
    rw [List.concat_eq_append] at hpairs hle ht ⊢
    have hspans : Token.spans (first :: (init ++ [last])) = first.leading.map Comment.span ++
        first.span :: (Token.spans init ++ last.leading.map Comment.span ++ [last.span]) := by
      simp [Token.spans]
    rw [hspans] at hpairs hle
    have hmem : k.span ∈ Token.spans init ++ last.leading.map Comment.span := by
      rcases List.mem_append.mp ht with ht | ht
      · refine List.mem_append_left _ (List.mem_flatMap.mpr ⟨t, ht, ?_⟩)
        exact List.mem_append_left _ (List.mem_map_of_mem hleading)
      · rw [List.mem_singleton.mp ht] at hleading
        exact List.mem_append_right _ (List.mem_map_of_mem hleading)
    -- The comment is behind the first token and before the last.
    obtain ⟨hafter, hpairs⟩ := List.pairwise_cons.mp (List.pairwise_append.mp hpairs).2.1
    have hlo : first.span.hi ≤ k.span.lo := hafter _ (List.mem_append_left _ hmem)
    have hhi : k.span.hi ≤ last.span.lo :=
      (List.pairwise_append.mp hpairs).2.2 _ hmem _ List.mem_cons_self
    have hfirst := hle first.span (by simp)
    have hlast := hle last.span (by simp)
    have hspan : Token.spanOf (first :: (init ++ [last])) = ⟨first.span.lo, last.span.hi⟩ := by
      rw [Token.spanOf, List.head?_cons, ← List.cons_append, List.getLast?_concat]
    rw [hspan]
    dsimp only
    omega

/-! ### Comments of a source -/

/-- The tree has the comment: it is an item or a statement of its own, or it stands inside of a part
of the source that is kept as it was written. -/
def CompilationUnit.HasComment (u : CompilationUnit) (source : String) (base : Nat) (k : Comment) :
    Prop :=
  u.Keeps (.comment (Verbatim.ofComment k)) ∨
    ∃ kept s, u.Keeps kept ∧ kept.Quotes s (s.textIn source base) ∧ s.lo ≤ k.span.lo ∧
      k.span.hi ≤ s.hi

/-- **Only heads and attempts that fail lose comments.** -/
theorem comments_kept {ext : Extensions} {source : String} {base : Nat} {u : CompilationUnit}
    (h : CompilationUnit.parse ext source base = .ok u) :
    ∃ ts xs ks lost eof, Token.tokenize source base = .ok ts ∧ eof.isEof = true ∧
      Thins ks (Leaf.ofTokens ts) (xs ++ [.token eof]) ∧ Lies (u.items.map .top) xs lost ∧
      (∀ k ∈ ks, ∃ d ∈ u.declarations, d.Abandons ext (Cursor.ofTokens ts) k) ∧
      ∀ t ∈ ts, ∀ k ∈ t.leading, u.HasComment source base k ∨ k ∈ lost ∨ k ∈ ks := by
  obtain ⟨ts, xs, ks, lost, eof, htokenize, heof, hthins, hlies, hks⟩ :=
    CompilationUnit.parse_lays h
  refine ⟨ts, xs, ks, lost, eof, htokenize, heof, hthins, hlies, hks, fun t ht k hk => ?_⟩
  have hleaf : .comment k ∈ Leaf.ofTokens ts :=
    Leaf.comment_mem_ofTokens.mpr (List.mem_flatMap.mpr ⟨t, ht, hk⟩)
  rcases hthins.mem_or_mem hleaf with hmem | hmem
  · have hxs : .comment k ∈ xs :=
      (List.mem_append.mp hmem).resolve_right fun hend => nomatch List.mem_singleton.mp hend
    rcases hlies.accounts k hxs with hlost | hkept | ⟨kept, rs, hkept, hquotes, hinside, hrs⟩
    · exact .inr (.inl hlost)
    · exact .inl (.inl (Node.keeps_tops.mp hkept))
    · -- The run is among the leaves, so its spans are in order and its text is that of the source.
      have hsublist : (Token.spans rs).Sublist (Token.spans ts) := by
        rw [← Leaf.map_span_ofTokens, ← Leaf.map_span_ofTokens]
        have hxs : xs.Sublist (Leaf.ofTokens ts) :=
          (List.sublist_append_left _ _).trans hthins.sublist
        exact (hrs.sublist.trans hxs).map _
      have hordered := Token.inside_spanOf ((Token.pairwise_spans htokenize).sublist hsublist)
        (fun s hs => (Token.within_of_mem_spans htokenize (hsublist.subset hs)).lo_le_hi) hinside
      have hne : rs ≠ [] := by
        rintro rfl
        cases hinside
      have htext : (Token.spanOf rs).textIn source base = Token.spell rs :=
        ((Verbatim.writtenIn_ofTokens hne).mono hrs).textIn_eq htokenize
          hthins.map_bare_eq
      rw [← htext] at hquotes
      exact .inl (.inr ⟨kept, Token.spanOf rs, Node.keeps_tops.mp hkept, hquotes, hordered⟩)
  · exact .inr (.inr hmem)

/-- A comment before a class and one in its head. -/
def commentedHead : String :=
  "// a\nclass C // b\n\x7b\n\x7d\n"

/-- The first comment is an item of the file. The second is lost. -/
theorem comments_kept_commentedHead :
    ∃ u ts xs ks lost eof, CompilationUnit.parse {} commentedHead 1 = .ok u ∧
      Token.tokenize commentedHead 1 = .ok ts ∧
      Thins ks (Leaf.ofTokens ts) (xs ++ [.token eof]) ∧ Lies (u.items.map .top) xs lost ∧
      ts.flatMap Token.leading = [⟨"// a", ⟨1, 5⟩, 0⟩, ⟨"// b", ⟨14, 18⟩, 8⟩] ∧
      u.HasComment commentedHead 1 ⟨"// a", ⟨1, 5⟩, 0⟩ ∧
      ¬u.HasComment commentedHead 1 ⟨"// b", ⟨14, 18⟩, 8⟩ ∧ ⟨"// b", ⟨14, 18⟩, 8⟩ ∈ lost := by
  have hrun : (CompilationUnit.parse {} commentedHead 1).toOption.map (fun u =>
        (Item.keptOf u.items, u.declarations.map fun d => (d.kept, d.body.length))) =
      some ([.comment ⟨"// a", ⟨1, 5⟩, 0, []⟩], [([], 0)]) := by
    decide +kernel
  have hcomments : (Token.tokenize commentedHead 1).toOption.map (List.flatMap Token.leading) =
      some [⟨"// a", ⟨1, 5⟩, 0⟩, ⟨"// b", ⟨14, 18⟩, 8⟩] := by
    decide +kernel
  obtain ⟨u, h, hrun⟩ := exists_ok_of_map hrun
  obtain ⟨hitems, hdeclarations⟩ := Prod.mk.inj hrun
  -- The class has no items, and the comment before it is all that the file keeps.
  obtain ⟨d, none, hd, hbody, hnone⟩ := List.map_eq_cons_iff.mp hdeclarations
  rw [List.map_eq_nil_iff.mp hnone] at hd
  have hempty : d.body = [] := List.length_eq_zero_iff.mp (Prod.mk.inj hbody).2
  have hkeeps : ∀ kept, u.Keeps kept ↔ kept = .comment ⟨"// a", ⟨1, 5⟩, 0, []⟩ := by
    intro kept
    rw [CompilationUnit.Keeps, hitems, hd]
    simp [(Prod.mk.inj hbody).1]
  have hlost : ¬u.HasComment commentedHead 1 ⟨"// b", ⟨14, 18⟩, 8⟩ := by
    rintro (hkept | ⟨kept, s, hkept, hquotes, -⟩)
    · exact absurd ((hkeeps _).mp hkept) (by decide)
    · rw [(hkeeps kept).mp hkept] at hquotes
      exact hquotes
  obtain ⟨ts, xs, ks, lost, eof, htokenize, -, hthins, hlies, hks, hall⟩ := comments_kept h
  rw [htokenize] at hcomments
  have hleading := Option.some.inj hcomments
  obtain ⟨t, ht, hk⟩ : ∃ t ∈ ts, ⟨"// b", ⟨14, 18⟩, 8⟩ ∈ t.leading :=
    List.mem_flatMap.mp (hleading ▸ List.mem_cons_of_mem _ List.mem_cons_self)
  refine ⟨u, ts, xs, ks, lost, eof, h, htokenize, hthins, hlies, hleading,
    .inl ((hkeeps _).mpr rfl), hlost, ?_⟩
  refine ((hall t ht _ hk).resolve_left hlost).resolve_right fun hmem => ?_
  -- Nothing was tried in an empty body.
  obtain ⟨d', hd', code, hcode, -⟩ := hks _ hmem
  rw [hd] at hd'
  rw [List.mem_singleton.mp hd', hempty] at hcode
  cases hcode

end ClassSugar
