import ClassSugar.Proofs.HeadLayout
import ClassSugar.Proofs.PassedLeaves

/-!
# Members as they are read

A member is read as a head, and perhaps a block in braces. Its reader accounts for every token that
it takes, and for every comment: what it passes is laid out by the member that it returns
(`member_lays`). No comment is dropped on the way unless the reader fails.
-/

namespace ClassSugar

open Reader

/-- A run that starts at a token without comments. -/
theorem Cursor.startsBare {c : Cursor} {run rest : List Token} (hbare : c.current.leading = [])
    (hrest : c.ahead = run ++ rest) (hrun : run ≠ []) : Token.StartsBare run := by
  obtain ⟨t, ts, rfl⟩ := List.exists_cons_of_ne_nil hrun
  rw [Cursor.current, hrest, List.cons_append, List.headD_cons] at hbare
  exact ⟨hrun, hbare⟩

/-- A token without comments is one leaf. -/
theorem Token.leaves_of_leading_eq_nil {t : Token} (h : t.leading = []) :
    t.leaves = [.token t.bare] := by
  rw [Token.leaves, h]
  rfl

theorem Cursor.leading_current_dropComments (c : Cursor) : c.dropComments.current.leading = [] := by
  cases hc : c.ahead <;> simp [Cursor.current, Cursor.dropComments, hc]

/-- Statements that lie on leaves are statements of the source or comments. -/
theorem Lies.ne_statement_expr {ns : List Node} {xs : List Leaf} {lost : List Comment}
    (h : Lies ns xs lost) (value : Verbatim) : Node.statement (.expr value) ∉ ns := by
  have hcons : ∀ {n : Node} {ns : List Node}, Node.statement (.expr value) ≠ n →
      Node.statement (.expr value) ∉ ns → Node.statement (.expr value) ∉ n :: ns := by
    intro n ns hn hns hmem
    exact hns ((List.mem_cons.mp hmem).resolve_left hn)
  induction h with
  | nil => exact List.not_mem_nil
  | skip _ _ ih => exact ih
  -- An expression is no comment, no code as it was written and no declaration.
  | comment hn _ ih
  | code _ hn _ ih
  | bodiless _ hn _ _ _ _ _ _ ih
  | braced _ hn _ _ _ _ _ _ _ _ _ ih => exact hcons (by rintro rfl; cases hn) ih
  | member _ _ _ _ _ ih => exact hcons nofun ih
  | bodied _ _ _ _ _ _ _ _ _ ih => exact hcons nofun ih
  | directive _ _ _ ih => exact hcons nofun ih
  | scope _ _ _ _ _ _ _ ih => exact hcons nofun ih
  | fileScope _ _ _ _ _ ih => exact hcons nofun ih

namespace Grammar

open Token (isHeadMark)

variable {origin : Cursor}

/-! ### Statements -/

/-- A statement has a token, and no more tokens than there are. -/
theorem bounds_of_statementLength {loop : Bool} {depth n : Nat} {ts : List Token}
    (h : Lookahead.statementLength loop depth ts = .ok n) : 0 < n ∧ n ≤ ts.length := by
  -- Where the statement goes on, the token passed over is counted on top of what follows it.
  have hpass : ∀ {length : Except Lookahead.Endless Nat} {n : Nat} {t : Token} {r : List Token},
      length.map (· + 1) = .ok n → (∀ {m}, length = .ok m → 0 < m ∧ m ≤ r.length) →
        0 < n ∧ n ≤ (t :: r).length := by
    intro length n t r hn hrest
    cases length with
    | error e => cases hn
    | ok m =>
      cases hn
      exact ⟨Nat.succ_pos m, Nat.succ_le_succ (hrest rfl).2⟩
  fun_induction Lookahead.statementLength loop depth ts generalizing n with
  | case1 => cases h
  | case2 loop depth t r hopen ih => exact hpass h ih
  | case3 => cases h
  | case4 loop depth t r hopen hclose depth' ended hended hloop =>
    rename_i ih
    exact hpass h ih
  | case5 loop depth t r hopen hclose depth' ended hended =>
    cases h
    exact ⟨Nat.one_pos, Nat.succ_le_succ (Nat.zero_le _)⟩
  | case6 loop depth t r hopen hclose depth' ended hended =>
    rename_i ih
    exact hpass h ih

/-- The tokens of a statement are a run that is not empty. -/
theorem take_statementLength_ne_nil {loop : Bool} {depth n : Nat} {ts : List Token}
    (h : Lookahead.statementLength loop depth ts = .ok n) : ts.take n ≠ [] := by
  obtain ⟨hpos, hle⟩ := bounds_of_statementLength h
  apply List.ne_nil_of_length_pos
  rw [List.length_take, Nat.min_eq_left hle]
  exact hpos

theorem statement_takes (c : Cursor) :
    Takes statement c fun run code => run ≠ [] ∧ code = Verbatim.ofTokens run := by
  refine .look rfl ?_
  split
  case h_1 n hn =>
    refine .bind (.take n) ?_
    rintro run _ rest - ⟨rfl, hrun⟩
    refine .pure ?_
    rw [List.append_nil]
    exact ⟨hrun ▸ take_statementLength_ne_nil hn, rfl⟩
  case h_2 => exact .look rfl (.failAt _ _)
  case h_3 => exact .failAt _ _

theorem rawItem_takes (c : Cursor) :
    Takes rawItem c fun run code => run ≠ [] ∧ code = Verbatim.ofTokens run := by
  refine .look rfl ?_
  split
  case h_1 tail htail =>
    refine .bind (.take _) ?_
    rintro run _ rest - ⟨rfl, hrun⟩
    refine .pure ?_
    have hread : run = tail.read := by
      rw [hrun]
      exact (List.prefix_iff_eq_take.mp ⟨tail.rest, tail.read_append_rest⟩).symm
    rw [List.append_nil]
    exact ⟨hread ▸ tail.read_ne_nil, rfl⟩
  case h_2 => exact .look rfl (.failAt _ _)
  case h_3 => exact .failAt _ _
  case h_4 => exact .failAt _ _

/-- Comments that are taken in front of other items are items in front of them. -/
theorem lies_comments_append {α : Type} {node : α → Node} {comment : Verbatim → α}
    (hnode : ∀ v, (node (comment v)).comment? = some v) (ks : List Comment) (found : List α)
    {xs : List Leaf} {lost : List Comment} (h : Lies (found.map node) xs lost) :
    Lies (((ks.map Verbatim.ofComment).map comment ++ found).map node) (ks.map .comment ++ xs)
      lost := by
  have hall := (Lies.comments hnode ks).append h
  rw [List.map_append, List.map_map, List.map_map]
  exact hall

/-- The leaves that a round of a block passes before the one that ends it. -/
def AreStatements (xs : List Leaf) (ks : List Comment) (found : List Statement) (_ : Cursor) :
    Prop :=
  ks = [] ∧ ∃ lost, Lies (found.map .statement) xs lost

/-- The leaves up to the end of a block, with the closing brace. -/
def EndWithBrace (xs : List Leaf) (ks : List Comment) (found : List Statement) (_ : Cursor) :
    Prop :=
  ks = [] ∧ ∃ zs closing lost, xs = zs ++ [.token closing] ∧ closing.isPunct "\x7d" = true ∧
    Lies (found.map .statement) zs lost

theorem blockRound_lays (c : Cursor) :
    Lays origin blockRound c fun xs ks found c' =>
      (found.2 = true ∧ AreStatements xs ks found.1 c') ∨
        (found.2 = false ∧ EndWithBrace xs ks found.1 c') := by
  refine .bind_comments ?_
  have hbare := c.leading_current_dropComments
  have hcomments (found : List Statement) {xs lost} (h : Lies (found.map .statement) xs lost) :
      Lies (((c.current.leading.map Verbatim.ofComment).map Statement.comment ++ found).map
        .statement) (c.current.leading.map .comment ++ xs) lost :=
    lies_comments_append (fun _ => rfl) c.current.leading found h
  refine .bind_takes (.eatPunct _) ?_
  rintro _ _ rest hrest (⟨rfl, t, rfl, ht⟩ | ⟨rfl, rfl, hno⟩)
  · -- The closing brace. Comments before it are statements already.
    have hleaves := Token.leaves_of_leading_eq_nil
      (c.dropComments.startsBare hbare hrest (List.cons_ne_nil t [])).2
    refine .pure (.inr ⟨rfl, rfl, c.current.leading.map .comment, t.bare, [], ?_, ht, ?_⟩)
    · simp [hleaves]
    · simpa using hcomments [] .nil
  · refine .look rfl (.ite (fun _ => .expected _) fun _ => ?_)
    refine .bind_takes (.eatPunct _) ?_
    rintro _ _ rest' hrest' (⟨rfl, t, rfl, ht⟩ | ⟨rfl, rfl, -⟩)
    · -- A lone semicolon.
      have hleaves := Token.leaves_of_leading_eq_nil
        (c.dropComments.startsBare hbare hrest' (List.cons_ne_nil t [])).2
      refine .pure (.inl ⟨rfl, rfl, [], ?_⟩)
      have hskip := hcomments [] (Lies.skip (t := t.bare) ht .nil)
      simpa [hleaves] using hskip
    · refine .bind_takes (statement_takes _) ?_
      rintro code run rest'' hrest'' ⟨hrun, rfl⟩
      refine .pure (.inl ⟨rfl, rfl, [], ?_⟩)
      have hstart := c.dropComments.startsBare hbare hrest'' hrun
      have hcode := hcomments [.source (Verbatim.ofTokens run)] (Lies.code hstart rfl .nil)
      simpa using hcode

/-- The leaves of a block: comments, which are its first statements, and the others in braces. -/
def IsBlock (ks : List Comment) (xs : List Leaf) (stmts : List Statement) : Prop :=
  ∃ opening closing zs inner lost,
    xs = ks.map .comment ++ .token opening :: zs ++ [.token closing] ∧
      stmts = ks.map (fun k => .comment (Verbatim.ofComment k)) ++ inner ∧
      opening.isPunct "\x7b" = true ∧ closing.isPunct "\x7d" = true ∧
      Lies (inner.map .statement) zs lost

theorem block_lays (c : Cursor) :
    Lays origin block c fun xs ks b _ => ks = [] ∧ IsBlock c.current.leading xs b.stmts := by
  refine .bind_comments (.bind_takes (.expectPunct _) ?_)
  rintro _ _ rest hrest ⟨opening, rfl, hopening⟩
  have hleaves := Token.leaves_of_leading_eq_nil
    (c.dropComments.startsBare c.leading_current_dropComments hrest (List.cons_ne_nil opening [])).2
  refine .bind (.rounds ?_ blockRound_lays _) ?_
  · rintro _ xs _ found _ xs' _ more _ ⟨rfl, lost, h⟩ ⟨rfl, zs, closing, lost', rfl, hclosing, h'⟩
    refine ⟨rfl, xs ++ zs, closing, lost ++ lost', (List.append_assoc _ _ _).symm, hclosing, ?_⟩
    rw [List.map_append]
    exact h.append h'
  · rintro stmts _ _ _ - ⟨rfl, zs, closing, lost, rfl, hclosing, h⟩
    refine .pure ⟨rfl, opening.bare, closing, zs, stmts, lost, ?_, ?_, hopening, hclosing, h⟩
    · simp [hleaves]
    · simp

/-! ### Members -/

/-- What a member reader passes is laid out by the member, and nothing is dropped. -/
def IsMember (xs : List Leaf) (ks : List Comment) (m : Member) (_ : Cursor) : Prop :=
  ks = [] ∧ ∃ lost, Lies [.item (.member m)] xs lost

/-- The same for a reader that may find a member of another shape. -/
def MayBeMember (xs : List Leaf) (ks : List Comment) (found : Option Member) (_ : Cursor) : Prop :=
  ks = [] ∧ ∀ m, found = some m → ∃ lost, Lies [.item (.member m)] xs lost

theorem IsMember.mayBeMember {xs : List Leaf} {ks : List Comment} {m : Member} {c : Cursor}
    (h : IsMember xs ks m c) : MayBeMember xs ks (some m) c := by
  obtain ⟨hks, hlies⟩ := h
  refine ⟨hks, ?_⟩
  rintro _ ⟨⟩
  exact hlies

section Members

variable {c : Cursor} {run rest : List Token} {kept : List Kept} {m : Member}

/-- A member without statements is a run of tokens. -/
theorem isMember_of_run {c' : Cursor} (hbare : c.current.leading = [])
    (hrest : c.ahead = run ++ rest) (hrun : run ≠ [])
    (hhead : IsHead Token.isMemberMark run kept) (hm : m.parts = some (kept, none))
    (hspan : m.span = Token.spanOf ((c.advance run.length).since c.position)) :
    IsMember (Leaf.ofTokens run) [] m c' := by
  have hpass := Cursor.Passes.advance hrest
  rw [hpass.spanOf_since, Leaf.tokens_ofTokens, Token.spanOf_map_bare] at hspan
  obtain ⟨lost, hhead⟩ := hhead
  have hlies := Lies.member (c.startsBare hbare hrest hrun) hm hspan hhead .nil
  rw [List.append_nil] at hlies
  exact ⟨rfl, _, hlies⟩

/-- A member with statements is a run of tokens and a block. -/
theorem isMember_of_block {xs : List Leaf} {ks : List Comment} {stmts : List Statement}
    {c' : Cursor} (hbare : c.current.leading = []) (hrest : c.ahead = run ++ rest) (hrun : run ≠ [])
    (hhead : IsHead isHeadMark run kept) (hpass : (c.advance run.length).Passes xs [] c')
    (hblock : IsBlock ks xs stmts) (hm : m.parts = some (kept, some stmts))
    (hspan : m.span = Token.spanOf (c'.since c.position)) :
    IsMember (Leaf.ofTokens run ++ xs) [] m c' := by
  have hall := (Cursor.Passes.advance hrest).trans hpass
  rw [hall.spanOf_since] at hspan
  obtain ⟨opening, closing, zs, inner, lost, rfl, rfl, hopening, hclosing, hbody⟩ := hblock
  obtain ⟨lost', hhead⟩ := hhead
  have hspan' : m.span = Token.spanOf (run ++ opening :: Leaf.tokens zs ++ [closing]) := by
    rw [hspan]
    apply Token.spanOf_congr
    simp
  have hlies := Lies.bodied (c.startsBare hbare hrest hrun) hm hspan' hhead hopening hbody hclosing
    .nil
  refine ⟨rfl, lost' ++ lost ++ [], ?_⟩
  simpa only [List.append_assoc, List.cons_append] using hlies

/-- The body of a constructor is an expression only if it was written so. -/
theorem parts_constructor {c : Constructor} (h : ∀ value, .expr value ∉ c.body.stmts) :
    (Member.constructor c).parts = some (c.headKept, some c.body.stmts) := by
  rw [Member.parts]
  split
  · rename_i value hstmts
    exact absurd (hstmts ▸ List.mem_singleton_self _) (h value)
  · rfl

theorem IsBlock.ne_expr {ks : List Comment} {xs : List Leaf} {stmts : List Statement}
    (h : IsBlock ks xs stmts) (value : Verbatim) : .expr value ∉ stmts := by
  obtain ⟨_, _, zs, inner, lost, -, rfl, -, -, hbody⟩ := h
  intro hmem
  rcases List.mem_append.mp hmem with hmem | hmem
  · obtain ⟨k, -, hk⟩ := List.mem_map.mp hmem
    cases hk
  · exact hbody.ne_statement_expr value (List.mem_map_of_mem hmem)

variable {start : MemberStart} {ty : TypeName} {name : String}

theorem constructor_lays (ext : Extensions) (hposition : start.position = c.position)
    (hbare : c.current.leading = []) (hrest : c.ahead = run ++ rest)
    (hhead : IsHead isHeadMark run (start.attributes.map .text)) :
    Lays origin (constructor ext start) (c.advance run.length) fun xs ks found c' =>
      MayBeMember (Leaf.ofTokens run ++ xs) ks found c' := by
  obtain ⟨position, attributes, modifiers⟩ := start
  subst hposition
  refine .bind_run hrest .expectIdent ?_
  rintro name _ _ hrest ⟨t, rfl, ht⟩
  refine .bind_run hrest (parameters_takes ext _) ?_
  rintro params run₁ _ hrest hparams
  refine .bind_run hrest (constructorCall_takes _) ?_
  rintro call run₂ _ hrest hcall
  have hhead := ((hhead.append (IsHead.word ht)).append hparams).append hcall
  have hne : run ++ [t] ++ run₁ ++ run₂ ≠ [] := by simp
  refine .look rfl (.ite (fun _ => ?_) fun _ => ?_)
  · -- A block. Its statements are none that only an arrow gives.
    refine .bind (block_lays _) ?_
    rintro b xs _ c' hpass ⟨rfl, hblock⟩
    refine .look rfl (.pure ?_)
    rw [List.append_nil]
    refine (isMember_of_block hbare hrest hne hhead hpass hblock ?_ rfl).mayBeMember
    rw [parts_constructor hblock.ne_expr]
    simp [Constructor.headKept]
  · refine .bind_run hrest (.eatPunct _) ?_
    rintro _ _ _ hrest (⟨rfl, u, rfl, hu⟩ | ⟨rfl, rfl, -⟩)
    · -- An expression behind an arrow.
      refine .bind_run hrest (expression_takes _) ?_
      rintro value run₃ _ hrest hvalue
      have hhead := (hhead.append (IsHead.punct hu (by decide))).append hvalue
      refine .look rfl (.pure ?_)
      rw [List.append_nil]
      refine (isMember_of_run hbare hrest (by simp) hhead.member ?_ rfl).mayBeMember
      simp [Member.parts, Constructor.headKept]
    · -- No body, so it is no constructor.
      exact .pure ⟨rfl, nofun⟩

/-- What a method without a block keeps of its body. -/
inductive IsFlatBody : MethodBody → List Kept → Prop where
  | expression (value : Verbatim) : IsFlatBody (.expression value) [.code value]
  | absent : IsFlatBody .absent []

/-- The body of a method is a block, or it is a run of tokens. -/
theorem methodBody_lays (c : Cursor) :
    Lays origin methodBody c fun xs ks body c' => ks = [] ∧
      ((∃ b, body = .block b ∧ IsBlock c.current.leading xs b.stmts) ∨
        ∃ run rest kept, c.ahead = run ++ rest ∧ c' = c.advance run.length ∧
          xs = Leaf.ofTokens run ∧ IsHead isHeadMark run kept ∧ IsFlatBody body kept) := by
  refine .look rfl (.ite (fun _ => ?_) fun _ => ?_)
  · refine .map ((block_lays c).mono ?_)
    rintro xs ks b c' - ⟨rfl, hblock⟩
    exact ⟨rfl, .inl ⟨b, rfl, hblock⟩⟩
  · have hflat : Takes (do
        if ← eatPunct "=>" then
          return .expression (← expression)
        else
          expectPunct ";"
          return .absent) c fun run body => ∃ kept, IsHead isHeadMark run kept ∧
        IsFlatBody body kept := by
      refine .bind (.eatPunct _) ?_
      rintro _ _ _ - (⟨rfl, t, rfl, ht⟩ | ⟨rfl, rfl, -⟩)
      · refine .map ((expression_takes _).mono ?_)
        rintro run _ value - hvalue
        exact ⟨_, (IsHead.punct ht (by decide)).append hvalue, .expression value⟩
      · refine .bind (.expectPunct _) ?_
        rintro _ _ _ - ⟨t, rfl, ht⟩
        exact .pure ⟨_, IsHead.punct ht (by decide), .absent⟩
    refine .of_takes hflat ?_
    rintro run rest body hrest ⟨kept, hhead, hbody⟩
    exact ⟨rfl, .inr ⟨run, rest, kept, hrest, rfl, rfl, hhead, hbody⟩⟩

theorem method_lays (ext : Extensions) (hposition : start.position = c.position)
    (hbare : c.current.leading = []) (hrest : c.ahead = run ++ rest) (hrun : run ≠ [])
    (hhead : IsHead isHeadMark run
      (start.attributes.map .text ++ [.joined ty.text, .joined name])) :
    Lays origin (method ext start ty name) (c.advance run.length) fun xs ks m c' =>
      IsMember (Leaf.ofTokens run ++ xs) ks m c' := by
  obtain ⟨position, attributes, modifiers⟩ := start
  subst hposition
  refine .bind_run hrest (typeParams_takes _) ?_
  rintro types run₁ _ hrest htypes
  refine .bind_run hrest (parameters_takes ext _) ?_
  rintro params run₂ _ hrest hparams
  refine .bind_run hrest (constraints_takes _ _) ?_
  rintro clauses run₃ _ hrest hclauses
  have hhead := ((hhead.append htypes).append hparams).append hclauses
  have hne : run ++ run₁ ++ run₂ ++ run₃ ≠ [] := by simp [hrun]
  refine .bind (methodBody_lays _) ?_
  rintro body xs _ c' hpass ⟨rfl, ⟨b, rfl, hblock⟩ |
    ⟨run₄, rest₄, kept, hrest₄, rfl, rfl, hflat, hbody⟩⟩
  · refine .look rfl (.pure ?_)
    rw [List.append_nil]
    exact isMember_of_block hbare hrest hne hhead hpass hblock rfl rfl
  · refine .look rfl (.pure ?_)
    rw [List.append_nil, ← Leaf.ofTokens_append, Cursor.advance_advance, ← List.length_append]
    rw [Cursor.ahead_advance_length hrest] at hrest₄
    rw [hrest₄, ← List.append_assoc] at hrest
    have hall := (hhead.append hflat).member
    refine isMember_of_run hbare hrest (by simp [hrun]) hall ?_ rfl
    cases hbody with
    | expression value | absent => simp [Member.parts, Method.headKept]

/-- A property or a field is a run of tokens. -/
theorem property_lays {body : PropertyBody} {initializer : Option Verbatim}
    (hposition : start.position = c.position) (hbare : c.current.leading = [])
    (hrest : c.ahead = run ++ rest) (hrun : run ≠ [])
    (hhead : IsHead Token.isMemberMark run (start.attributes.map .text ++
      [.joined ty.text, .joined name] ++ body.kept ++ initializer.toList.map .code)) :
    Lays origin (property start ty name body initializer) (c.advance run.length)
      fun xs ks m c' => IsMember (Leaf.ofTokens run ++ xs) ks m c' := by
  refine .look rfl (.pure ?_)
  rw [List.append_nil]
  refine isMember_of_run hbare hrest hrun hhead rfl ?_
  rw [← hposition]
  rfl

theorem typedMember_lays (ext : Extensions) (hposition : start.position = c.position)
    (hbare : c.current.leading = []) (hrest : c.ahead = run ++ rest) (hrun : run ≠ [])
    (hhead : IsHead isHeadMark run
      (start.attributes.map .text ++ [.joined ty.text, .joined name])) :
    Lays origin (typedMember ext start ty name) (c.advance run.length) fun xs ks m c' =>
      IsMember (Leaf.ofTokens run ++ xs) ks m c' := by
  have hflat : IsHead Token.isMemberMark run _ := hhead.member
  refine .look rfl (.ite (fun _ => ?_) fun _ => .ite (fun hopen => ?_) fun _ => ?_)
  · exact method_lays ext hposition hbare hrest hrun hhead
  · -- A property in braces, and perhaps an initializer.
    refine .bind_run hrest (propertyBody_takes _ hopen) ?_
    rintro body run₁ _ hrest hbody
    refine .bind_run hrest (.eatPunct _) ?_
    rintro found run₂ _ hrest hfound
    have hmark : IsHead isHeadMark run₂ [] := by
      rcases hfound with ⟨-, t, rfl, ht⟩ | ⟨-, rfl, -⟩
      · exact .punct ht (by decide)
      · exact .nil
    have hvalue (c : Cursor) : Takes (some <$> expression) c fun run value =>
        IsHead isHeadMark run (value.toList.map .code) := Takes.map (expression_takes c)
    refine .ite_bind_run hrest (fun _ => hvalue _) (fun _ => .pure .nil) ?_
    rintro initializer run₃ _ hrest hinitializer
    refine property_lays hposition hbare hrest (by simp [hrun]) ?_
    have hrest : IsHead Token.isMemberMark _ _ := (hmark.append hinitializer).member
    rw [List.append_assoc (run ++ run₁)]
    exact (hflat.append hbody).append hrest
  · refine .bind_run hrest (.eatPunct _) ?_
    rintro _ _ _ hrest (⟨rfl, t, rfl, ht⟩ | ⟨rfl, rfl, -⟩)
    · -- A property that is an expression.
      refine .bind_run hrest (expression_takes _) ?_
      rintro value run₁ _ hrest hvalue
      refine property_lays hposition hbare hrest (by simp [hrun]) ?_
      have hall := (hhead.append (IsHead.punct ht (by decide))).append hvalue
      exact hall.member.of_eq (by simp [PropertyBody.kept])
    · -- A field.
      rw [List.append_nil] at hrest ⊢
      refine .bind_run hrest (fieldInitializer_takes _) ?_
      rintro initializer run₁ _ hrest hinitializer
      refine .look rfl (.pure ?_)
      rw [List.append_nil]
      have hall := (hhead.append hinitializer).member
      refine isMember_of_run hbare hrest (by simp [hrun]) hall rfl ?_
      rw [← hposition]
      rfl

/-- The modifiers ahead are words. -/
theorem modifiers_takes (c : Cursor) :
    Takes (take (modifierCount c.ahead)) c fun run _ => IsHead isHeadMark run [] := by
  refine (Takes.take _).mono ?_
  rintro run _ _ - ⟨-, rfl⟩
  refine .marks fun t ht => ?_
  generalize c.ahead = ts at ht
  fun_induction modifierCount ts with
  | case1 => cases ht
  | case2 u r word hword hmodifier ih =>
    rcases List.mem_cons.mp ht with rfl | ht
    · exact Token.isHeadMark_of_ident? (by rw [hword]; rfl)
    · exact ih ht
  | case3 => cases ht
  | case4 => cases ht

/-- **Members account for what they pass.** The leaves from the start of a member to its end are
laid out by the member that is found. -/
theorem member_lays (ext : Extensions) (className : String) (hbare : c.current.leading = []) :
    Lays origin (member ext className) c MayBeMember := by
  refine .look rfl ?_
  refine .start (.bind_run (List.nil_append _).symm (attributes_takes _) ?_)
  rintro attributes run₁ _ hrest hattributes
  refine .look rfl (.bind_run hrest (modifiers_takes _) ?_)
  rintro modifiers run₂ _ hrest hmodifiers
  have hhead := (hattributes.isHead.append hmodifiers).of_eq (List.append_nil _)
  -- Only what starts like a member goes on from here, and every other way out finds none.
  refine .look rfl (.ite (fun _ => .pure ⟨rfl, nofun⟩) fun _ => ?_)
  refine .ite (fun _ => constructor_lays ext rfl hbare hrest hhead) fun _ => ?_
  refine .bind_run hrest (typeName_takes _) ?_
  rintro ty run₃ _ hrest hty
  refine .look rfl (.ite (fun _ => .pure ⟨rfl, nofun⟩) fun _ => ?_)
  refine .bind_run hrest (memberName_takes _) ?_
  rintro name run₄ _ hrest ⟨hne, hname⟩
  have hhead := ((hhead.append hty).append hname).of_eq (List.append_assoc _ _ _)
  refine .map (.mono (typedMember_lays ext rfl hbare hrest (by simp [hne]) hhead) ?_)
  exact fun _ _ _ _ _ h => h.mayBeMember

end Members

end Grammar

end ClassSugar
