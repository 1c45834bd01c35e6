import ClassSugar.Proofs.LosslessTokens
import ClassSugar.Proofs.MemberLayout

/-!
# Files as they are read

The readers of bodies, declarations and files account for all that they pass, so a file that is read
lies on the whole of its source (`CompilationUnit.parse_lays`).

One reader goes back. An item of a body is tried as a member first, and if that fails its tokens are
given back and kept as they stand. The attempt may have run past the end of the item, and comments
that it took there are gone: they are *abandoned* (`Abandoned`). The theorem lists these comments,
each with the item that was tried.
-/

namespace ClassSugar

open Reader

namespace Grammar

/-- A comment that is gone because code of a body was tried as a member: the attempt fails at a
cursor that was reached from the origin, the code is what stands there, and the comment is off its
token behind the code once the tokens are given back. -/
def Abandoned (ext : Extensions) (origin : Cursor) (className : String) (code : Verbatim)
    (k : Comment) : Prop :=
  ∃ c c' n, origin.Moves c ∧ attempt (member ext className) c = .ok none c' ∧
    code = Verbatim.ofTokens (c.ahead.take n) ∧
    k ∈ Token.dropped (c.remaining.drop n) (c'.remaining.drop n)

end Grammar

/-- The comment was abandoned for an item of the declaration's own body. -/
def Declaration.Abandons (ext : Extensions) (origin : Cursor) (d : Declaration) (k : Comment) :
    Prop :=
  ∃ code, .member (.raw code) ∈ d.body ∧ Grammar.Abandoned ext origin d.name code k

namespace Grammar

open Token (isHeadMark)

variable {origin c : Cursor} {ext : Extensions} {className : String}

/-! ### Bodies -/

/-- The comment was abandoned for one of the items, or for one nested in them. -/
def BodyAbandons (ext : Extensions) (origin : Cursor) (className : String) (items : List BodyItem)
    (k : Comment) : Prop :=
  (∃ code, .member (.raw code) ∈ items ∧ Abandoned ext origin className code k) ∨
    ∃ d ∈ BodyItem.declarations items, d.Abandons ext origin k

/-- What is passed is laid out by items of a body, and what is dropped was abandoned for them. -/
def IsBody (ext : Extensions) (origin : Cursor) (className : String) (xs : List Leaf)
    (ks : List Comment) (items : List BodyItem) (_ : Cursor) : Prop :=
  (∃ lost, Lies (items.map .item) xs lost) ∧ ∀ k ∈ ks, BodyAbandons ext origin className items k

/-- What is passed is laid out by a declaration, and what is dropped was abandoned for it or for one
nested in it. -/
def IsDeclaration (ext : Extensions) (origin : Cursor) (xs : List Leaf) (ks : List Comment)
    (d : Declaration) (_ : Cursor) : Prop :=
  (∃ lost, ∀ n : Node, n.declaration? = some d → Lies [n] xs lost) ∧
    ∀ k ∈ ks, ∃ d' ∈ d.withNested, d'.Abandons ext origin k

theorem BodyAbandons.mono {items items' : List BodyItem} {k : Comment}
    (h : BodyAbandons ext origin className items k) (hitems : items ⊆ items') :
    BodyAbandons ext origin className items' k := by
  rcases h with ⟨code, hcode, habandoned⟩ | ⟨d, hd, habandons⟩
  · exact .inl ⟨code, hitems hcode, habandoned⟩
  · refine .inr ⟨d, ?_, habandons⟩
    rw [BodyItem.declarations_eq_flatMap, List.mem_flatMap] at hd ⊢
    obtain ⟨item, hitem, hd⟩ := hd
    exact ⟨item, hitems hitem, hd⟩

theorem IsBody.append {xs xs' : List Leaf} {ks ks' : List Comment} {items items' : List BodyItem}
    {c c' : Cursor} (h : IsBody ext origin className xs ks items c)
    (h' : IsBody ext origin className xs' ks' items' c') :
    IsBody ext origin className (xs ++ xs') (ks ++ ks') (items ++ items') c' := by
  obtain ⟨⟨lost, hlies⟩, hks⟩ := h
  obtain ⟨⟨lost', hlies'⟩, hks'⟩ := h'
  refine ⟨⟨lost ++ lost', ?_⟩, fun k hk => ?_⟩
  · rw [List.map_append]
    exact hlies.append hlies'
  · rcases List.mem_append.mp hk with hk | hk
    · exact (hks k hk).mono (List.subset_append_left _ _)
    · exact (hks' k hk).mono (List.subset_append_right _ _)

/-- Code that is kept after it was tried as a member. -/
theorem rawMember_lays (hbare : c.current.leading = []) {c' : Cursor}
    (hattempt : attempt (member ext className) c = .ok none c') (hbehind : c'.behind = c.behind)
    (hahead : List.Forall₂ Token.Bared c.ahead c'.ahead) (hlast : Token.Bared c.last c'.last)
    (hend : c.last.isEof = true) (horigin : origin.Moves c) :
    CameOf c (fun xs ks item c'' => IsBody ext origin className xs ks [item] c'')
      ((return .member (.raw (← rawItem)) : Reader BodyItem) c') := by
  have hmoves : c.Moves c' := ⟨[], hbehind, hahead, hlast⟩
  have hend' : c'.last.isEof = true := hmoves.isEof_last.trans hend
  rw [bind_apply]
  cases hraw : rawItem c' with
  | error e c'' =>
    exact hmoves.trans ((rawItem_takes c').lays.of_error hend' hmoves hraw)
  | ok code c'' =>
    obtain ⟨_, _, -, run, rest, hrest, rfl, rfl, rfl, hrun, rfl⟩ :=
      (rawItem_takes c').lays.of_ok hend' hmoves hraw
    -- The tokens of the code, with the comments that stood before the attempt.
    have hlength : run.length ≤ c.ahead.length := by
      rw [hahead.length_eq, hrest, List.length_append]
      exact Nat.le_add_right _ _
    have hsplit : c.remaining = c.ahead.take run.length ++ c.remaining.drop run.length := by
      rw [Cursor.remaining, List.drop_append_of_le_length hlength, ← List.append_assoc,
        List.take_append_drop]
    have hremaining : (c'.advance run.length).remaining = c'.remaining.drop run.length := by
      rw [Cursor.remaining, Cursor.remaining, Cursor.ahead_advance_length hrest, hrest,
        List.append_assoc, List.drop_left]
      rfl
    have hcode : Verbatim.ofTokens run = Verbatim.ofTokens (c.ahead.take run.length) := by
      have htake := List.forall₂_take run.length hahead
      rw [hrest, List.take_left] at htake
      exact (Verbatim.ofTokens_congr (Token.map_bare_eq_of_forall₂ htake)).symm
    refine ⟨Leaf.ofTokens (c.ahead.take run.length),
      Token.dropped (c.remaining.drop run.length) (c'.remaining.drop run.length),
      ⟨hmoves.trans (.advance hrest), ?_⟩, ⟨[], ?_⟩, fun k hk => ?_⟩
    · have hbared : List.Forall₂ Token.Bared c.remaining c'.remaining :=
        List.rel_append hahead (.cons hlast .nil)
      have hthins := (Thins.refl _ (Leaf.ofTokens (c.ahead.take run.length))).append
        (.of_forall₂ (List.forall₂_drop run.length hbared))
      rw [← Leaf.ofTokens_append, ← hsplit] at hthins
      rw [Cursor.leaves, Cursor.leaves, hremaining]
      exact hthins
    · have hne : c.ahead.take run.length ≠ [] := by
        intro hnil
        have hzero := congrArg List.length hnil
        rw [List.length_take_of_le hlength] at hzero
        exact hrun (List.length_eq_zero_iff.mp hzero)
      have hlies := Lies.code (n := .item (.member (.raw (Verbatim.ofTokens run))))
        (c.startsBare hbare (List.take_append_drop _ _).symm hne) (congrArg some hcode) .nil
      rw [List.append_nil] at hlies
      exact hlies
    · exact .inl ⟨_, List.mem_singleton_self _, c, c', run.length, horigin, hattempt, hcode, hk⟩

/-- The items of a body up to its end, where the comments before the closing brace are taken. -/
def IsWholeBody (ext : Extensions) (origin : Cursor) (className : String) (xs : List Leaf)
    (ks : List Comment) (items : List BodyItem) (c : Cursor) : Prop :=
  IsBody ext origin className xs ks items c ∧ c.current.leading = []

/-- What stands after the head of a declaration: a semicolon, or items in braces. -/
inductive IsClassBody (ext : Extensions) (origin : Cursor) (className : String) :
    List Leaf → List Comment → List BodyItem → Prop where
  | bodiless {t : Token} (ht : t.isPunct ";" = true) :
      IsClassBody ext origin className (Leaf.ofTokens [t]) [] []
  | braced {opening closing : Token} {zs : List Leaf} {tail : List Token} {ks lost : List Comment}
      {items : List BodyItem} (hopening : opening.isPunct "\x7b" = true)
      (hlies : Lies (items.map .item) zs lost) (hclosing : closing.isPunct "\x7d" = true)
      (htail : tail = [] ∨ ∃ semicolon, tail = [semicolon] ∧ semicolon.isPunct ";" = true)
      (hks : ∀ k ∈ ks, BodyAbandons ext origin className items k) :
      IsClassBody ext origin className
        (opening.leaves ++ zs ++ .token closing :: Leaf.ofTokens tail) ks items

section Nested

variable {nestedType : Reader Declaration}
  (hnested : ∀ c, c.current.leading = [] → Lays origin nestedType c (IsDeclaration ext origin))
include hnested

theorem bodyItem_lays (hbare : c.current.leading = []) :
    Lays origin (bodyItem ext nestedType className) c fun xs ks item c' =>
      IsBody ext origin className xs ks [item] c' := by
  refine .look rfl (.ite (fun _ => ?_) fun _ => .ite (fun _ => ?_) fun _ => ?_)
  · -- A statement.
    refine .bind_takes (statement_takes c) ?_
    rintro code run rest hrest ⟨hrun, rfl⟩
    have hlies := Lies.code (n := .item (.statement (Verbatim.ofTokens run)))
      (c.startsBare hbare hrest hrun) rfl .nil
    exact .pure ⟨⟨[], hlies⟩, nofun⟩
  · -- A type within the class.
    refine .bind (hnested c hbare) ?_
    rintro d xs ks c' - ⟨⟨lost, hlies⟩, hks⟩
    refine .pure ?_
    rw [List.append_nil, List.append_nil]
    refine ⟨⟨lost, hlies _ rfl⟩, fun k hk => .inr ?_⟩
    rw [BodyItem.declarations_eq_flatMap, List.flatMap_singleton]
    exact hks k hk
  · -- Something that is tried as a member.
    refine .bind_attempt (member_lays ext className hbare) ?_ ?_
    · rintro m xs _ c' - ⟨rfl, hm⟩
      refine .pure ?_
      rw [List.append_nil]
      exact ⟨hm m rfl, nofun⟩
    · intro c' hattempt hbehind hahead hlast hend horigin
      exact rawMember_lays hbare hattempt hbehind hahead hlast hend horigin

theorem bodyRound_lays (c : Cursor) :
    Lays origin (bodyRound ext nestedType className) c fun xs ks found c' =>
      (found.2 = true ∧ IsBody ext origin className xs ks found.1 c') ∨
        (found.2 = false ∧ IsWholeBody ext origin className xs ks found.1 c') := by
  refine .bind_comments ?_
  have hbare := c.leading_current_dropComments
  have hcomments (found : List BodyItem) {xs lost} (h : Lies (found.map .item) xs lost) :
      Lies (((c.current.leading.map Verbatim.ofComment).map BodyItem.comment ++ found).map .item)
        (c.current.leading.map .comment ++ xs) lost :=
    lies_comments_append (fun _ => rfl) c.current.leading found h
  have hnone := hcomments [] .nil
  rw [List.append_nil] at hnone
  refine .look rfl (.ite (fun _ => ?_) fun _ => ?_)
  · -- The closing brace ends the rounds. It is not taken yet.
    exact .pure (.inr ⟨rfl, ⟨⟨[], hnone⟩, nofun⟩, hbare⟩)
  · refine .look rfl (.ite (fun _ => .expected _) fun _ => ?_)
    refine .bind_takes (.eatPunct _) ?_
    rintro _ _ rest hrest (⟨rfl, t, rfl, ht⟩ | ⟨rfl, rfl, -⟩)
    · -- A lone semicolon. Its comments are items already, so it is a leaf by itself.
      have hleaves := Token.leaves_of_leading_eq_nil
        (c.dropComments.startsBare hbare hrest (List.cons_ne_nil t [])).2
      refine .pure (.inl ⟨rfl, ⟨[], ?_⟩, nofun⟩)
      have hskip := hcomments [] (Lies.skip (t := t.bare) ht .nil)
      simpa [hleaves] using hskip
    · refine .bind (bodyItem_lays hnested hbare) ?_
      rintro item xs ks c' - ⟨⟨lost, hlies⟩, hks⟩
      refine .pure (.inl ⟨rfl, ⟨lost, ?_⟩, fun k hk => ?_⟩)
      · rw [List.append_nil]
        exact hcomments [item] hlies
      · rw [List.append_nil] at hk
        exact (hks k hk).mono (List.subset_append_right _ _)

theorem classBody_lays (c : Cursor) :
    Lays origin (classBody ext nestedType className) c fun xs ks items _ =>
      IsClassBody ext origin className xs ks items := by
  refine .bind_takes (.eatPunct _) ?_
  rintro _ _ _ - (⟨rfl, t, rfl, ht⟩ | ⟨rfl, rfl, -⟩)
  · refine .pure ?_
    rw [List.append_nil]
    exact .bodiless ht
  · refine .bind_takes (.expectPunct _) ?_
    rintro _ _ _ - ⟨opening, rfl, hopening⟩
    refine .bind (.rounds ?_ (bodyRound_lays hnested) _) ?_
    · rintro _ _ _ _ _ _ _ _ _ hbody ⟨hmore, hbare⟩
      exact ⟨hbody.append hmore, hbare⟩
    · rintro items zs ks c' - ⟨⟨⟨lost, hlies⟩, hks⟩, hbare⟩
      refine .bind_takes (.expectPunct _) ?_
      rintro _ _ rest hrest ⟨closing, rfl, hclosing⟩
      have hleaves := Token.leaves_of_leading_eq_nil
        (c'.startsBare hbare hrest (List.cons_ne_nil closing [])).2
      refine .bind_takes (.eatPunct _) ?_
      rintro _ tail _ - htail
      have htail' : tail = [] ∨ ∃ semicolon, tail = [semicolon] ∧ semicolon.isPunct ";" = true := by
        rcases htail with ⟨-, semicolon, rfl, hsemicolon⟩ | ⟨-, rfl, -⟩
        · exact .inr ⟨semicolon, rfl, hsemicolon⟩
        · exact .inl rfl
      refine .pure ?_
      have hbody : IsClassBody ext origin className
          (opening.leaves ++ zs ++ .token closing.bare :: Leaf.ofTokens tail) ks items :=
        .braced hopening hlies hclosing htail' hks
      simpa [hleaves] using hbody

end Nested

/-! ### Declarations -/

/-- What the entries after the colon keep is what the bases among them keep. -/
theorem flatMap_kept_entries (entries : List HeaderEntry) :
    entries.flatMap HeaderEntry.kept =
      (entries.filterMap fun
        | .base entry => some entry
        | .access _ => none).flatMap BaseEntry.kept := by
  induction entries with
  | nil => rfl
  | cons entry rest ih =>
    rw [List.flatMap_cons, ih]
    cases entry with
    | access words => rfl
    | base entry => rfl

/-- A head and what stands after it make a declaration. -/
theorem isDeclaration_of_body {run rest : List Token} {xs : List Leaf} {ks : List Comment}
    {c' : Cursor} {d : Declaration} (hbare : c.current.leading = [])
    (hrest : c.ahead = run ++ rest) (hrun : run ≠ [])
    (hhead : IsHead isHeadMark run d.toHeader.kept)
    (hpass : (c.advance run.length).Passes xs ks c')
    (hbody : IsClassBody ext origin d.name xs ks d.body)
    (hsource : d.source = Verbatim.ofTokens (c'.since c.position))
    (hspan : d.span = d.source.span) :
    IsDeclaration ext origin (Leaf.ofTokens run ++ xs) ks d c' := by
  have hall := (Cursor.Passes.advance hrest).trans hpass
  rw [hall.ofTokens_since] at hsource
  have hstart := c.startsBare hbare hrest hrun
  obtain ⟨lost, hhead⟩ := hhead
  generalize hitems : d.body = items at hbody
  cases hbody with
  -- A semicolon instead of a body.
  | @bodiless t ht =>
    have hsource' : d.source = Verbatim.ofTokens (run ++ [t]) := by
      rw [hsource]
      apply Verbatim.ofTokens_congr
      simp
    refine ⟨⟨lost ++ t.leading ++ [], fun n hn => ?_⟩, nofun⟩
    have hlies := Lies.bodiless hstart hn hsource' hspan hhead ht hitems .nil
    simpa using hlies
  -- A body in braces, with the comments that were abandoned in it.
  | @braced opening closing zs tail ks lost' items hopening hlies hclosing htail hks =>
    have hsource' : d.source =
        Verbatim.ofTokens (run ++ opening :: Leaf.tokens zs ++ closing :: tail) := by
      rw [hsource]
      apply Verbatim.ofTokens_congr
      simp
    refine ⟨⟨lost ++ opening.leading ++ lost' ++ tail.flatMap Token.leading ++ [],
      fun n hn => ?_⟩, fun k hk => ?_⟩
    · have hall := Lies.braced hstart hn hsource' hspan hhead hopening (hitems ▸ hlies) hclosing
        htail .nil
      simpa using hall
    · obtain ⟨header, body⟩ := d
      cases hitems
      rw [Declaration.withNested]
      -- They were abandoned for an item of this body, or for one of a nested type.
      rcases hks k hk with ⟨code, hcode, habandoned⟩ | ⟨d', hd', habandons⟩
      · exact ⟨_, List.mem_cons_self, code, hcode, habandoned⟩
      · exact ⟨d', List.mem_cons_of_mem _ hd', habandons⟩

theorem declarationWith_lays {nestedType : Reader Declaration}
    (hnested : ∀ c, c.current.leading = [] → Lays origin nestedType c (IsDeclaration ext origin))
    (hbare : c.current.leading = []) :
    Lays origin (declarationWith ext nestedType) c (IsDeclaration ext origin) := by
  refine .look rfl ?_
  -- The head, part by part. The run grows, and with it what the head keeps.
  refine .start (.bind_run (List.nil_append _).symm (attributes_takes _) ?_)
  rintro attributes run₁ _ hrest hattributes
  refine .bind_run hrest (takeWords_takes _ _) ?_
  rintro words run₂ _ hrest ⟨-, hwords⟩
  refine .bind_run hrest (declarationKind_takes _) ?_
  rintro kind run₃ _ hrest hkind
  refine .bind_run hrest .expectIdent ?_
  rintro name _ _ hrest ⟨t, rfl, ht⟩
  refine .bind_run hrest (typeParams_takes _) ?_
  rintro types run₅ _ hrest htypes
  have hparams (c : Cursor) : Takes (some <$> parameters ext) c fun run params =>
      IsHead isHeadMark run ((params.getD []).flatMap Parameter.kept) :=
    Takes.map (parameters_takes ext c)
  refine .look rfl
    (.ite_bind_run hrest (fun _ => hparams _) (fun _ => .pure .nil) ?_)
  rintro params run₆ _ hrest hparams
  refine .bind_run hrest (headerEntries_takes _) ?_
  rintro entries run₇ _ hrest hentries
  refine .bind_run hrest (constraints_takes _ _) ?_
  rintro clauses run₈ _ hrest hclauses
  rw [flatMap_kept_entries] at hentries
  have hhead := (((((((hattributes.isHead.append hwords).append hkind).append
    (IsHead.word ht)).append htypes).append hparams).append hentries).append hclauses)
  -- The body, and the source of the declaration from its first token on.
  refine .bind (classBody_lays hnested _) ?_
  rintro body xs ks c' hpass hbody
  refine .look rfl (.pure ?_)
  rw [List.append_nil, List.append_nil]
  refine isDeclaration_of_body hbare hrest (by simp) (hhead.of_eq ?_) hpass hbody rfl rfl
  rw [List.append_nil, List.append_nil, List.append_nil]
  rfl

theorem declaration_lays (ext : Extensions) (hbare : c.current.leading = []) :
    Lays origin (declaration ext) c (IsDeclaration ext origin) := by
  refine .nested (P := fun c => c.current.leading = [])
    (Q := fun _ => IsDeclaration ext origin) ?_ () c hbare
  intro self hself _ c hbare
  exact declarationWith_lays (hself ()) hbare

/-! ### Files -/

/-- What is passed is laid out by items, and what is dropped was abandoned for declarations in
them. -/
def AreItems (ext : Extensions) (origin : Cursor) (xs : List Leaf) (ks : List Comment)
    (items : List Item) (_ : Cursor) : Prop :=
  (∃ lost, Lies (items.map .top) xs lost) ∧
    ∀ k ∈ ks, ∃ d ∈ Item.declarationsOf items, d.Abandons ext origin k

/-- The items up to their end: the end of the file, or the brace that ends a namespace. -/
def AreAllItems (ext : Extensions) (origin : Cursor) (inBraces : Bool) (xs : List Leaf)
    (ks : List Comment) (items : List Item) (c : Cursor) : Prop :=
  AreItems ext origin xs ks items c ∧ c.current.leading = [] ∧ (inBraces = false → c.ahead = [])

theorem AreItems.append {xs xs' : List Leaf} {ks ks' : List Comment} {items items' : List Item}
    {c c' : Cursor} (h : AreItems ext origin xs ks items c)
    (h' : AreItems ext origin xs' ks' items' c') :
    AreItems ext origin (xs ++ xs') (ks ++ ks') (items ++ items') c' := by
  obtain ⟨⟨lost, hlies⟩, hks⟩ := h
  obtain ⟨⟨lost', hlies'⟩, hks'⟩ := h'
  refine ⟨⟨lost ++ lost', ?_⟩, fun k hk => ?_⟩
  · rw [List.map_append]
    exact hlies.append hlies'
  · rw [Item.declarationsOf_eq_flatMap, List.flatMap_append, ← Item.declarationsOf_eq_flatMap,
      ← Item.declarationsOf_eq_flatMap]
    rcases List.mem_append.mp hk with hk | hk
    · obtain ⟨d, hd, habandons⟩ := hks k hk
      exact ⟨d, List.mem_append_left _ hd, habandons⟩
    · obtain ⟨d, hd, habandons⟩ := hks' k hk
      exact ⟨d, List.mem_append_right _ hd, habandons⟩

/-- What is passed is laid out by one item. -/
def IsItem (ext : Extensions) (origin : Cursor) (xs : List Leaf) (ks : List Comment)
    (found : Item) (c : Cursor) : Prop :=
  AreItems ext origin xs ks [found] c

theorem abandons_scope {name : String} {fileScoped : Bool} {items : List Item} {k : Comment}
    (h : ∃ d ∈ Item.declarationsOf items, d.Abandons ext origin k) :
    ∃ d ∈ Item.declarationsOf [.scope name fileScoped items], d.Abandons ext origin k := by
  rw [Item.declarationsOf_eq_flatMap [_], List.flatMap_singleton, Item.declarations]
  exact h

/-- Code that is kept as an item. -/
theorem isItem_raw {run rest : List Token} {c' : Cursor} (hbare : c.current.leading = [])
    (hrest : c.ahead = run ++ rest) (hrun : run ≠ []) :
    IsItem ext origin (Leaf.ofTokens run) [] (.raw (Verbatim.ofTokens run)) c' := by
  have hlies := Lies.code (n := .top (.raw (Verbatim.ofTokens run)))
    (c.startsBare hbare hrest hrun) rfl .nil
  rw [List.append_nil] at hlies
  exact ⟨⟨[], hlies⟩, nofun⟩

section Items

variable {items : Bool → Reader (List Item)}
  (hitems : ∀ inBraces c, Lays origin (items inBraces) c (AreAllItems ext origin inBraces))
include hitems

theorem namespaceWith_lays (hbare : c.current.leading = [])
    (hword : Lookahead.atWord "namespace" c.ahead = true) :
    Lays origin (namespaceWith items) c (IsItem ext origin) := by
  refine .start (.bind_run (List.nil_append _).symm (.skip_of_startsWith hword) ?_)
  rintro _ _ _ hrest ⟨t, rfl, ht⟩
  refine .bind_run hrest (.takeUntil _ _) ?_
  rintro name _ _ hrest ⟨rfl, -⟩
  have hmark : t.isNamespaceMark = true := by simp [Token.isNamespaceMark, ht]
  have hhead : IsHead Token.isNamespaceMark ([] ++ [t] ++ name) [.joined (Token.join name)] :=
    (IsHead.mark hmark).append (.joined name)
  refine .bind_run hrest (.eatPunct _) ?_
  rintro _ _ _ hrest' (⟨rfl, u, rfl, hu⟩ | ⟨rfl, rfl, -⟩)
  · -- A namespace for the rest of the file.
    have hsemicolon : u.isNamespaceMark = true := by simp [Token.isNamespaceMark, hu]
    obtain ⟨lost, hhead⟩ := hhead.append (IsHead.mark hsemicolon)
    refine .bind (hitems false _) ?_
    rintro inner zs ks c' - ⟨⟨⟨lost', hlies⟩, hks⟩, -⟩
    refine .pure ⟨⟨lost ++ lost' ++ [], ?_⟩, fun k hk => abandons_scope (hks k ?_)⟩
    · have hall := Lies.fileScope (c.startsBare hbare hrest' (by simp)) hhead hlies .nil
      simpa using hall
    · simpa using hk
  · -- A namespace in braces.
    rw [List.append_nil]
    refine .bind_run hrest (.expectPunct _) ?_
    rintro _ _ _ - ⟨opening, rfl, hopening⟩
    obtain ⟨lost, hhead⟩ := hhead
    refine .bind (hitems true _) ?_
    rintro inner zs ks c' - ⟨⟨⟨lost', hlies⟩, hks⟩, hbare', -⟩
    refine .bind_takes (.expectPunct _) ?_
    rintro _ _ _ hrest'' ⟨closing, rfl, hclosing⟩
    have hleaves := Token.leaves_of_leading_eq_nil
      (c'.startsBare hbare' hrest'' (List.cons_ne_nil closing [])).2
    refine .pure ⟨⟨lost ++ opening.leading ++ lost' ++ [], ?_⟩,
      fun k hk => abandons_scope (hks k ?_)⟩
    · have hclosing' : closing.bare.isPunct "\x7d" = true := hclosing
      have hall := Lies.scope (c.startsBare hbare hrest (by simp)) hhead hopening hlies hclosing'
        .nil
      simpa [hleaves] using hall
    · simpa using hk

theorem item_lays (hbare : c.current.leading = []) :
    Lays origin (item ext items) c (IsItem ext origin) := by
  refine .look rfl (.ite (fun husing => ?_) fun _ => .ite (fun hword => ?_) fun _ =>
    .ite (fun htarget => ?_) fun _ => .ite (fun _ => ?_) fun _ => ?_)
  · -- A `using` directive.
    refine .bind_takes (usingDirective_takes c husing) ?_
    rintro u run rest hrest ⟨hrun, lost, hhead⟩
    have hlies := Lies.directive (c.startsBare hbare hrest hrun) hhead .nil
    exact .pure ⟨⟨lost ++ [], hlies⟩, nofun⟩
  · exact namespaceWith_lays hitems hbare hword
  · -- An attribute of the whole file.
    refine .bind_takes .takeGroup? ?_
    rintro _ run rest hrest (⟨rfl, group, -, rfl⟩ | ⟨rfl, rfl⟩)
    · refine .pure ?_
      rw [List.append_nil]
      exact isItem_raw hbare hrest group.read_ne_nil
    · exact .expected _
  · -- A declaration.
    refine .bind (declaration_lays ext hbare) ?_
    rintro d xs ks c' - ⟨⟨lost, hlies⟩, hks⟩
    refine .pure ?_
    rw [List.append_nil, List.append_nil]
    refine ⟨⟨lost, hlies _ rfl⟩, fun k hk => ?_⟩
    rw [Item.declarationsOf_eq_flatMap, List.flatMap_singleton, Item.declarations]
    exact hks k hk
  · -- Anything else is kept.
    refine .bind_takes (rawItem_takes c) ?_
    rintro code run rest hrest ⟨hrun, rfl⟩
    refine .pure ?_
    rw [List.append_nil]
    exact isItem_raw hbare hrest hrun

theorem itemsRound_lays {inBraces : Bool} (c : Cursor) :
    Lays origin (itemsRound ext items inBraces) c fun xs ks found c' =>
      (found.2 = true ∧ AreItems ext origin xs ks found.1 c') ∨
        (found.2 = false ∧ AreAllItems ext origin inBraces xs ks found.1 c') := by
  refine .bind_comments ?_
  have hbare := c.leading_current_dropComments
  have hcomments (found : List Item) {xs lost} (h : Lies (found.map .top) xs lost) :
      Lies (((c.current.leading.map Verbatim.ofComment).map Item.comment ++ found).map .top)
        (c.current.leading.map .comment ++ xs) lost :=
    lies_comments_append (fun _ => rfl) c.current.leading found h
  have hnone := hcomments [] .nil
  rw [List.append_nil] at hnone
  refine .look rfl (.ite (fun hend => .ite (fun _ => .expected _) fun _ => ?_)
    fun _ => .look rfl (.ite (fun hclose => ?_) fun _ => ?_))
  · -- The end of the file.
    refine .pure (.inr ⟨rfl, ⟨⟨[], hnone⟩, nofun⟩, hbare, fun _ => ?_⟩)
    exact List.isEmpty_iff.mp hend
  · -- The end of a namespace in braces.
    rw [Bool.and_eq_true] at hclose
    refine .pure (.inr ⟨rfl, ⟨⟨[], hnone⟩, nofun⟩, hbare, fun hopen => ?_⟩)
    rw [hclose.1] at hopen
    cases hopen
  · refine .bind (item_lays hitems hbare) ?_
    rintro found xs ks c' - ⟨⟨lost, hlies⟩, hks⟩
    refine .pure (.inl ⟨rfl, ⟨lost, ?_⟩, fun k hk => ?_⟩)
    · rw [List.append_nil]
      exact hcomments [found] hlies
    · rw [List.append_nil] at hk
      obtain ⟨d, hd, habandons⟩ := hks k hk
      refine ⟨d, ?_, habandons⟩
      rw [Item.declarationsOf_eq_flatMap] at hd ⊢
      rw [List.flatMap_append]
      exact List.mem_append_right _ hd

end Items

theorem items_lays (ext : Extensions) (inBraces : Bool) (c : Cursor) :
    Lays origin (items ext inBraces) c (AreAllItems ext origin inBraces) := by
  refine .nested (P := fun _ => True) ?_ inBraces c trivial
  intro self hself inBraces c _
  refine .rounds ?_ (itemsRound_lays fun inBraces c => hself inBraces c trivial) c
  rintro _ _ _ _ _ _ _ _ _ hitems ⟨hmore, hend⟩
  exact ⟨hitems.append hmore, hend⟩

end Grammar

namespace CompilationUnit

/-- **A file lies on its source.** Its leaves, but for comments that were abandoned, are laid out by
the items of the tree, and the end of the file follows. -/
theorem parse_lays {ext : Extensions} {source : String} {base : Nat} {u : CompilationUnit}
    (h : parse ext source base = .ok u) :
    ∃ ts xs ks lost eof, Token.tokenize source base = .ok ts ∧ eof.isEof = true ∧
      Thins ks (Leaf.ofTokens ts) (xs ++ [.token eof]) ∧ Lies (u.items.map .top) xs lost ∧
      ∀ k ∈ ks, ∃ d ∈ u.declarations, d.Abandons ext (Cursor.ofTokens ts) k := by
  obtain ⟨ts, c', htokens, hitems⟩ := exists_items_of_parse h
  -- The tokens end with the end of the file.
  obtain ⟨init, last, rfl, -, hlast, -⟩ := Token.exists_eof_of_tokenize htokens
  have hcursor : Cursor.ofTokens (init ++ [last]) = ⟨[], init, last⟩ := by
    rw [Cursor.ofTokens, List.dropLast_concat, List.getLast?_concat]
    rfl
  have hend : (Cursor.ofTokens (init ++ [last])).last.isEof = true := by rw [hcursor]; exact hlast
  obtain ⟨xs, ks, hpass, ⟨⟨lost, hlies⟩, hks⟩, hbare, hahead⟩ :=
    (Grammar.items_lays ext false _).of_ok hend (.refl _) hitems
  have hrest : c'.leaves = [.token c'.last.bare] := by
    rw [Cursor.current, hahead rfl] at hbare
    rw [Cursor.leaves, Cursor.remaining, hahead rfl]
    exact congrArg (· ++ []) (Token.leaves_of_leading_eq_nil hbare)
  have hthins := hpass.thins
  rw [hcursor, hrest] at hthins
  have heof : c'.last.bare.isEof = true := hpass.moves.isEof_last.trans hend
  exact ⟨_, xs, ks, lost, c'.last.bare, htokens, heof, hthins, hlies, hks⟩

end CompilationUnit

end ClassSugar
