import ClassSugar.Proofs.MemberLayout
import ClassSugar.Proofs.SteadyReaders
import ClassSugar.Proofs.TameTree

/-!
# The grammar is steady

Every reader of the grammar is steady on every sequence of tokens, wherever these stand. There is
one statement for each of them; beside the progress that a repetition or a recursion needs, it says
what the tree knows of the tokens: which of them the reader kept as text, by their indices; that what
it made of tame tokens is tame; and that a grammar without null assertions reads no parameter as
asserted. This module goes up to the parts of members; `SteadyUnit` has the members, declarations and
files.

Code of a class body comes to the tree in three ways: as a statement, as an expression behind `=` or
`=>`, and as the braces of a property. The three look ahead for its end in different ways, and all
of them find a balanced run of the tokens (`Verbatim.IsCode`). Members and types kept as written
need not be balanced: they end at a semicolon or behind a group in braces, and brackets that close
in front of it are not counted.
-/

namespace ClassSugar

open Reader

/-! ### Code by its indices -/

/-- The text is that of the tokens from `i` up to `j`, two indices in order and none behind the
end. -/
structure Verbatim.CutFrom (ts : List Token) (i j : Nat) (v : Verbatim) : Prop where
  le : i ≤ j
  le_length : j ≤ ts.length
  eq : v = Verbatim.ofTokens (Token.range ts i j)

/-- The same of a text that is kept without its place. -/
structure Token.SpelledFrom (ts : List Token) (i j : Nat) (text : String) : Prop where
  le : i ≤ j
  le_length : j ≤ ts.length
  eq : text = Token.spell (Token.range ts i j)

/-- The text is that of a balanced run of tokens, and of at least one. -/
def Verbatim.IsCode (ts : List Token) (v : Verbatim) : Prop :=
  ∃ i j, i < j ∧ v.CutFrom ts i j ∧ Token.Balanced (Token.range ts i j)

theorem Token.IsRange.cutFrom {ts run : List Token} {i j : Nat} (h : Token.IsRange ts i j run) :
    (Verbatim.ofTokens run).CutFrom ts i j :=
  ⟨h.le, h.le_length, h.ofTokens_eq⟩

theorem Token.IsRange.spelledFrom {ts run : List Token} {i j : Nat}
    (h : Token.IsRange ts i j run) : Token.SpelledFrom ts i j (Token.spell run) :=
  ⟨h.le, h.le_length, h.spell_eq⟩

theorem Token.IsRange.isCode {ts run : List Token} {i j : Nat} (h : Token.IsRange ts i j run)
    (hne : run ≠ []) (hrun : Token.Balanced run) : (Verbatim.ofTokens run).IsCode ts :=
  ⟨i, j, h.lt_of_ne_nil hne, h.cutFrom, h.balanced hrun⟩

/-- The code of a statement. -/
def Statement.fragments : Statement → List Verbatim
  | .source code => [code]
  | .ret value => [value]
  | .expr value => [value]
  | _ => []

/-- The code of the statements of a block. -/
def Block.fragments (b : Block) : List Verbatim :=
  b.stmts.flatMap Statement.fragments

/-- The code of a property body. -/
def PropertyBody.fragments : PropertyBody → List Verbatim
  | .auto _ => []
  | .expression value => [value]
  | .raw code => [code]

/-- The code of a method body. -/
def MethodBody.fragments : MethodBody → List Verbatim
  | .block body => body.fragments
  | .expression value => [value]
  | .absent => []

/-- The code of a member: its initializer and its body. A member kept as written is no code, and a
nested class has its own. -/
def Member.fragments : Member → List Verbatim
  | .field f => f.initializer.toList
  | .property p => p.body.fragments ++ p.initializer.toList
  | .constructor c => c.body.fragments
  | .method m => m.body.fragments
  | .type _ => []
  | .raw _ => []

/-- The code of an item of a class body. -/
def BodyItem.fragments : BodyItem → List Verbatim
  | .member m => m.fragments
  | .statement code => [code]
  | .comment _ => []

/-- The code of a declaration, without that of the classes nested in it. -/
def Declaration.fragments (d : Declaration) : List Verbatim :=
  d.body.flatMap BodyItem.fragments

/-! ### Drawn from tokens

What holds of each part of a tree that is read from the tokens `ts`, all of which have the property
`W`. -/

structure Parameter.Drawn (ext : Extensions) (W : Token → Prop) (p : Parameter) : Prop where
  tame : Token.Tames W → p.Tame
  unmarked : ext.nullAssertion = false → p.nullAssertion = none

structure Statement.Drawn (ts : List Token) (W : Token → Prop) (s : Statement) : Prop where
  code : ∀ v ∈ s.fragments, v.IsCode ts
  tame : Token.Tames W → s.Tame

namespace Grammar

variable {k : Nat} {ts : List Token} {W : Token → Prop} {c : Cursor}

/-! ### Attributes, types and parameters -/

/-- Texts do not move. -/
theorem texts_move (texts : List String) : texts = texts.map id :=
  (List.map_id texts).symm

/-- The comma or bracket behind an attribute is taken, and is no part of it. -/
theorem attributeEntry_steady :
    Steady k ts W (Prod.map (List.map id) id) attributeEntry attributeEntry c fun found c' =>
      c.position < c'.position ∧
        ∀ text ∈ found.1, Token.SpelledFrom ts c.position (c'.position - 1) text := by
  refine .bind (.takeUntil _ fun _ => rfl) ?_
  rintro run c₁ - - ⟨hrange, -, hahead, -⟩
  dsimp only
  rw [List.isEmpty_map, Token.spell_shift]
  -- Whichever of the two ends the attribute, the cursor is one token behind it.
  have htexts : ∀ c' : Cursor, c'.position = c₁.position + 1 → c.position < c'.position ∧
      ∀ text ∈ (if run.isEmpty then [] else [Token.spell run]),
        Token.SpelledFrom ts c.position (c'.position - 1) text := by
    intro c' hpos
    rw [hpos, Nat.add_sub_cancel]
    refine ⟨Nat.lt_succ_of_le hrange.le, fun text htext => ?_⟩
    split at htext
    · cases htext
    · rw [List.mem_singleton.mp htext]
      exact hrange.spelledFrom
  refine .next (.eatPunct _) ?_
  rintro _ c₂ - - (⟨rfl, hpos⟩ | ⟨rfl, rfl, -⟩)
  · exact .pure (congrArg (·, false) (texts_move _)) (htexts c₂ hpos)
  · exact .next (.skip_of_ahead_ne hahead) fun _ c' _ _ hpos =>
      .pure (congrArg (·, true) (texts_move _)) (htexts c' hpos)

theorem attributeEntry_round :
    Steady.Round k ts W id attributeEntry attributeEntry (fun _ => True) c :=
  attributeEntry_steady.mono fun _ _ _ _ h => ⟨fun _ _ => trivial, fun _ => h.1⟩

theorem attributeSection_steady :
    Steady.Round k ts W id attributeSection attributeSection (fun _ => True) c := by
  refine .next (.eatPunct _) ?_
  rintro _ c₁ - - (⟨rfl, hpos⟩ | ⟨rfl, rfl, -⟩)
  · refine .bind (.rounds fun _ _ => attributeEntry_round) fun _ c₂ _ hle _ => ?_
    exact .round_goes_on rfl (fun _ _ => trivial) (by omega)
  · exact .round_ended rfl fun _ h => by cases h

theorem attributes_steady : Steady k ts W id attributes attributes c fun _ _ => True := by
  rw [← List.map_id_fun]
  exact (Steady.rounds fun _ _ => attributeSection_steady).mono fun _ _ _ _ _ => trivial

theorem typeName_steady :
    Steady k ts W id typeName typeName c fun _ c' => c.position < c'.position := by
  refine .ahead ?_
  rw [Lookahead.typeRest_shift]
  cases Lookahead.typeRest c.ahead with
  | none => exact .expected _
  | some rest =>
    dsimp only [Option.map_some]
    rw [Text.Tail.read_map, List.length_map]
    refine .bind (.take _) ?_
    rintro _ c' - - ⟨hrange, rfl, -, -⟩
    refine .pure (congrArg TypeName.mk (Token.join_shift k _)) (hrange.lt_of_ne_nil ?_)
    rw [rest.take_length_read]
    exact rest.read_ne_nil

theorem typeParams_steady :
    Steady k ts W id typeParams typeParams c fun found _ =>
      Token.Tames W → ∀ s ∈ found, Paired s.toList := by
  refine .atPunct _ (.ite (fun _ => ?_) fun _ => .pure rfl fun _ => nofun)
  refine .bind (.take 1) fun opening _ _ _ hopening => ?_
  refine .bind (.takeUntil _ fun _ => rfl) fun inner _ _ _ hinner => ?_
  refine .bind (.take 1) fun closing _ _ _ hclosing => .pure ?_ ?_
  · rw [← List.map_append, ← List.map_append, Token.join_shift]
    rfl
  rintro hW _ ⟨⟩
  refine Token.paired_join fun t ht => hW t ?_
  rcases List.mem_append.mp ht with ht | ht
  · exact List.forall_mem_append.mpr ⟨hopening.2.2.2, hinner.2.2.2⟩ t ht
  · exact hclosing.2.2.2 t ht

theorem constraint_steady {stop : Token → Bool} (hstop : Token.Blind k stop) :
    Steady.Round k ts W id (constraint stop) (constraint stop) (fun _ => True) c := by
  have hwhere : Token.Blind k fun t => t.isIdent "where" || stop t := by
    intro t
    dsimp only
    rw [hstop t]
    rfl
  refine .next (.eatWord _) ?_
  rintro _ c₁ - - (⟨rfl, hpos⟩ | ⟨rfl, rfl, -⟩)
  · refine .bind (.takeUntil _ hwhere) fun run c₂ _ hle _ => ?_
    refine .round_goes_on ?_ (fun _ _ => trivial) (by omega)
    rw [Token.join_shift, List.map_id]
  · exact .round_ended rfl fun _ h => by cases h

theorem constraints_steady {stop : Token → Bool} (hstop : Token.Blind k stop) :
    Steady k ts W id (constraints stop) (constraints stop) c fun _ _ => True := by
  rw [← List.map_id_fun]
  exact (Steady.rounds fun _ _ => constraint_steady hstop).mono fun _ _ _ _ _ => trivial

theorem eatMarks_steady (ext : Extensions) :
    Steady k ts W id (eatMarks ext) (eatMarks ext) c fun marked _ =>
      ext.nullAssertion = false → marked = false := by
  refine .ahead ?_
  rw [← List.map_drop, Lookahead.atPunct_shift, Lookahead.atPunct_shift]
  refine .ite (fun hmarks => ?_) fun _ => .pure rfl fun _ => rfl
  refine .bind (.take 2) fun _ _ _ _ _ => .pure rfl fun hoff => ?_
  -- Marks are eaten only by a grammar that understands them.
  simp [hoff] at hmarks

theorem defaultValue_steady :
    Steady k ts W id defaultValue defaultValue c fun found c' => ∀ text ∈ found,
      Token.SpelledFrom ts (c.position + 1) c'.position text := by
  refine .next (.eatPunct _) ?_
  rintro _ c₁ - - (⟨rfl, hpos⟩ | ⟨rfl, rfl, -⟩)
  · refine .bind (.takeUntil _ fun _ => rfl) ?_
    rintro run c₂ - - ⟨hrange, -, -, -⟩
    refine .pure (congrArg some (Token.spell_shift k run)) fun text htext => ?_
    rw [← Option.mem_some.mp htext, ← hpos]
    exact hrange.spelledFrom
  · exact .pure rfl fun _ h => by cases h

theorem clean_of_word {word : String} (h : ∃ t, W t ∧ t.ident? = some word)
    (hW : Token.Tames W) : Clean word := by
  obtain ⟨t, ht, hword⟩ := h
  exact (hW t ht).clean_of_ident? hword

theorem parameter_steady (ext : Extensions) :
    Steady k ts W (Parameter.shift k) (parameter ext) (parameter ext) c fun p c' =>
      c.position < c'.position ∧ p.Drawn ext W := by
  refine .position ?_
  refine .next attributes_steady fun _ c₁ _ hle₁ _ => ?_
  refine .next (.takeWords _) fun _ c₂ _ hle₂ hmodifiers => ?_
  refine .next typeName_steady fun _ c₃ _ hle₃ _ => ?_
  -- All in front of its name may be missing, and what follows it too.
  refine .next .expectIdent fun _ c₄ _ _ hname => ?_
  refine .next (eatMarks_steady ext) fun marked c₅ _ hle₅ hmarked => ?_
  refine .next defaultValue_steady fun _ c₆ _ hle₆ _ => ?_
  refine .bind (.since (by omega)) ?_
  rintro run _ - - ⟨rfl, -, hne, -⟩
  refine .pure ?_ ⟨by omega, fun hW => ?_, fun hoff => ?_⟩
  · rw [Token.spanOf_shift k (hne (by omega))]
    rfl
  · exact ⟨hW.clean_of_words hmodifiers, clean_of_word hname.2 hW⟩
  · -- Neither the marks nor an attribute make an assertion.
    simp [hmarked hoff, hoff]

theorem parameterRound_steady (ext : Extensions) :
    Steady.Round k ts W (Parameter.shift k) (parameterRound ext) (parameterRound ext)
      (Parameter.Drawn ext W) c := by
  refine .bind (parameter_steady ext) fun p c₁ _ _ hp => ?_
  have hsingle : ∀ q ∈ [p], q.Drawn ext W := List.forall_mem_singleton.mpr hp.2
  refine .next (.eatPunct _) ?_
  rintro _ c₂ - - (⟨rfl, -⟩ | ⟨rfl, rfl, -⟩)
  · exact .round_ended rfl hsingle
  · refine .next (.expectPunct _) fun _ c₃ _ hle _ => ?_
    exact .round_goes_on rfl hsingle (by omega)

theorem parameters_steady (ext : Extensions) :
    Steady k ts W (List.map (Parameter.shift k)) (parameters ext) (parameters ext) c
      fun params c' => c.position < c'.position ∧ ∀ p ∈ params, p.Drawn ext W := by
  refine .next (.expectPunct _) fun _ c₁ _ _ hpos₁ => ?_
  refine .next (.eatPunct _) ?_
  rintro _ c₂ - - (⟨rfl, hpos₂⟩ | ⟨rfl, rfl, -⟩)
  · exact .pure rfl ⟨by omega, nofun⟩
  · refine (Steady.rounds fun _ _ => parameterRound_steady ext).mono fun _ _ _ hle h => ?_
    exact ⟨by omega, h⟩

/-! ### Statements -/

/-- A statement is a balanced run from the cursor on, as long as it was counted. -/
theorem statement_steady :
    Steady k ts W (Verbatim.shift k) statement statement c fun v c' =>
      (∃ n, Lookahead.statementLength (Lookahead.atWord "do" c.ahead) 0 c.ahead = .ok n ∧
        0 < n ∧ c'.position = c.position + n) ∧
      v.CutFrom ts c.position c'.position ∧ v.IsCode ts ∧ (Token.Tames W → v.Tame) := by
  refine .ahead ?_
  rw [Lookahead.atWord_shift, Lookahead.statementLength_shift]
  cases hn : Lookahead.statementLength (Lookahead.atWord "do" c.ahead) 0 c.ahead with
  | ok n =>
    obtain ⟨hpos, hle⟩ := bounds_of_statementLength hn
    have hne := take_statementLength_ne_nil hn
    refine .bind (.take n) ?_
    rintro _ c' - - ⟨hrange, rfl, hc', hall⟩
    -- The length counts tokens that are there, so the cursor moves by all of it.
    have hposition : c'.position = c.position + n := by
      rw [hc', Cursor.position_advance, Nat.min_eq_left hle]
    have hbalanced := (Lookahead.closes_of_statementLength hn).balanced
    exact .pure (Verbatim.ofTokens_shift k hne) ⟨⟨n, rfl, hpos, hposition⟩, hrange.cutFrom,
      hrange.isCode hne hbalanced, Verbatim.tame_of_forall hall⟩
  | error endless =>
    cases endless with
    | atEnd => exact .state (.failAt (fun h => by cases h) _)
    | atBracket t => exact .failAt (fun h => by cases h) _

theorem rawItem_steady :
    Steady k ts W (Verbatim.shift k) rawItem rawItem c fun v c' =>
      c.position < c'.position ∧ v.CutFrom ts c.position c'.position ∧
        (Token.Tames W → v.Tame) := by
  refine .ahead ?_
  rw [Lookahead.rawRest_shift]
  cases Lookahead.rawRest c.ahead with
  | ok tail =>
    dsimp only [Except.map, Except.mapError]
    rw [Text.Tail.read_map, List.length_map]
    refine .bind (.take _) ?_
    rintro _ c' - - ⟨hrange, rfl, -, hall⟩
    have hne : c.ahead.take tail.read.length ≠ [] := by
      rw [tail.take_length_read]
      exact tail.read_ne_nil
    exact .pure (Verbatim.ofTokens_shift k hne) ⟨hrange.lt_of_ne_nil hne, hrange.cutFrom,
      Verbatim.tame_of_forall hall⟩
  | error endless =>
    cases endless with
    | atEnd => exact .state (.failAt (fun h => by cases h) _)
    | atBrace t => exact .failAt (fun h => by cases h) _
    | unclosed t => exact .failAt (fun h => by cases h) _

theorem comments_steady :
    Steady k ts W (List.map (Verbatim.shift k)) takeComments takeComments c fun found _ =>
      ∀ v ∈ found, Token.Tames W → v.Tame := by
  refine Steady.takeComments.mono ?_
  rintro found _ - - ⟨-, hfound⟩ v hv hW
  obtain ⟨t, ht, k, hk, rfl⟩ := hfound v hv
  exact (hW t ht).leading k hk

/-- Moving code and then using it is using it and then moving what it is used in. -/
theorem map_map_shift {α : Type} {use : Verbatim → α} (move : α → α)
    (h : ∀ code, use (code.shift k) = move (use code)) (codes : List Verbatim) :
    (codes.map (Verbatim.shift k)).map use = (codes.map use).map move := by
  rw [List.map_map, List.map_map]
  exact List.map_congr_left fun code _ => h code

/-- Comments of a round hold no code. -/
theorem drawn_comments {comments : List Verbatim} (h : ∀ v ∈ comments, Token.Tames W → v.Tame) :
    ∀ s ∈ comments.map Statement.comment, s.Drawn ts W :=
  List.forall_mem_map.mpr fun v hv => ⟨nofun, h v hv⟩

theorem blockRound_steady :
    Steady.Round k ts W (Statement.shift k) blockRound blockRound (Statement.Drawn ts W) c := by
  refine .bind comments_steady ?_
  rintro comments c₁ - hle₁ hfound
  have hcomments : ∀ s ∈ comments.map Statement.comment, s.Drawn ts W := drawn_comments hfound
  dsimp only
  rw [map_map_shift (Statement.shift k) fun _ => rfl]
  refine .next (.eatPunct _) ?_
  rintro _ c₂ - - (⟨rfl, -⟩ | ⟨rfl, rfl, -⟩)
  · exact .round_ended rfl hcomments
  refine .atEnd (.ite (fun _ => .expected _) fun _ => ?_)
  refine .next (.eatPunct _) ?_
  rintro _ c₃ - - (⟨rfl, hpos⟩ | ⟨rfl, rfl, -⟩)
  · exact .round_goes_on rfl hcomments (by omega)
  -- Neither the brace nor a semicolon is ahead, so the round takes a statement.
  refine .bind statement_steady ?_
  rintro code c₄ - - ⟨⟨n, -, hpos, hposition⟩, -, hcode, htame⟩
  refine .round_goes_on ?_ (List.forall_mem_append.mpr ⟨hcomments, ?_⟩) (by omega)
  · rw [List.map_append]
    rfl
  · exact List.forall_mem_singleton.mpr ⟨List.forall_mem_singleton.mpr hcode, htame⟩

theorem block_steady :
    Steady k ts W (Block.shift k) block block c fun b _ => ∀ s ∈ b.stmts, s.Drawn ts W := by
  refine .bind comments_steady fun comments _ _ _ hfound => ?_
  dsimp only
  rw [map_map_shift (Statement.shift k) fun _ => rfl]
  refine .next (.expectPunct _) fun _ _ _ _ _ => ?_
  refine .bind (.rounds fun _ _ => blockRound_steady) fun stmts _ _ _ hstmts => .pure ?_ ?_
  · rw [Block.shift, List.map_append]
  · exact List.forall_mem_append.mpr ⟨drawn_comments hfound, hstmts⟩

/-! ### Parts of members -/

/-- An expression is a balanced run from the cursor on, up to the semicolon taken after it. -/
theorem expression_steady :
    Steady k ts W (Verbatim.shift k) expression expression c fun v c' =>
      v.CutFrom ts c.position (c'.position - 1) ∧ v.IsCode ts ∧ (Token.Tames W → v.Tame) := by
  refine .bind (.takeUntil _ fun _ => rfl) ?_
  rintro run c₁ - - ⟨hrange, hbalanced, hahead, hall⟩
  rw [List.isEmpty_map]
  refine .ite (fun _ => .expected _) fun hempty => ?_
  have hne : run ≠ [] := mt List.isEmpty_iff.mpr hempty
  refine .next (.skip_of_ahead_ne hahead) fun _ c₂ _ _ hpos =>
    .pure (Verbatim.ofTokens_shift k hne) ?_
  rw [hpos, Nat.add_sub_cancel]
  exact ⟨hrange.cutFrom, hrange.isCode hne (hbalanced rfl), Verbatim.tame_of_forall hall⟩

/-- Whatever of a property body is code is the whole group in braces. -/
theorem eq_of_mem_propertyBodyOf {group : List Token} {v : Verbatim}
    (h : v ∈ (propertyBodyOf group).fragments) : v = Verbatim.ofTokens group := by
  revert h
  rw [propertyBodyOf]
  split
  · split
    · intro h
      cases h
    · exact List.mem_singleton.mp
  · exact List.mem_singleton.mp

theorem propertyBody_steady :
    Steady k ts W (PropertyBody.shift k) propertyBody propertyBody c fun b c' =>
      (∀ v ∈ b.fragments, v.CutFrom ts c.position c'.position ∧ v.IsCode ts) ∧
        (Token.Tames W → b.Tame) := by
  refine .bind .takeGroup? ?_
  rintro _ c₁ - - (⟨run, rfl, hrange, hbalanced, htwo, hall⟩ | ⟨rfl, -⟩)
  · have hne : run ≠ [] := List.ne_nil_of_length_pos (by omega)
    refine .pure (propertyBodyOf_shift hne) ⟨fun v hv => ?_, fun hW => ?_⟩
    · rw [eq_of_mem_propertyBodyOf hv]
      exact ⟨hrange.cutFrom, hrange.isCode hne hbalanced⟩
    · exact tame_propertyBodyOf fun t ht => hW t (hall t ht)
  · exact .expected _

/-- The arguments of a constructor call stand between its parentheses, and these behind a colon and
a keyword. -/
theorem constructorCall_steady :
    Steady k ts W id constructorCall constructorCall c fun found c' => ∀ text ∈ found,
      ∃ keyword args, text = keyword ++ "(" ++ args ++ ")" ∧
        Token.SpelledFrom ts (c.position + 3) (c'.position - 1) args := by
  refine .next (.eatPunct _) ?_
  rintro _ c₁ - - (⟨rfl, hpos₁⟩ | ⟨rfl, rfl, -⟩)
  · refine .next .expectIdent fun keyword c₂ _ _ hpos₂ => ?_
    refine .ite (fun _ => .expected _) fun _ => ?_
    refine .atPunct _ (.ite (fun _ => ?_) fun _ => .expected _)
    refine .bind .takeGroup? ?_
    rintro _ c₃ - - (⟨run, rfl, hrange, -, htwo, -⟩ | ⟨rfl, -⟩)
    · refine .pure ?_ fun text htext => ⟨keyword, _, (Option.mem_some.mp htext).symm, ?_⟩
      · rw [← List.map_drop, ← List.map_dropLast, Token.spell_shift]
        rfl
      · have hinner := (hrange.inner htwo).spelledFrom
        have hstart : c₂.position + 1 = c.position + 3 := by omega
        rw [hstart] at hinner
        exact hinner
    · exact .expected _
  · exact .pure rfl fun _ h => by cases h

theorem methodBody_steady :
    Steady k ts W (MethodBody.shift k) methodBody methodBody c fun b _ =>
      (∀ v ∈ b.fragments, v.IsCode ts) ∧ (Token.Tames W → b.Tame) := by
  refine .atPunct _ (.ite (fun _ => ?_) fun _ => ?_)
  · refine .bind block_steady fun _ _ _ _ hblock => .pure rfl ⟨?_, fun hW s hs => ?_⟩
    · exact List.forall_mem_flatMap.mpr fun s hs => (hblock s hs).code
    · exact (hblock s hs).tame hW
  refine .next (.eatPunct _) ?_
  rintro _ c₁ - - (⟨rfl, -⟩ | ⟨rfl, rfl, -⟩)
  · refine .bind expression_steady fun value _ _ _ hvalue => .pure rfl ⟨?_, hvalue.2.2⟩
    exact List.forall_mem_singleton.mpr hvalue.2.1
  · exact .next (.expectPunct _) fun _ _ _ _ _ => .pure rfl ⟨nofun, fun _ => trivial⟩

theorem fieldInitializer_steady :
    Steady k ts W (Option.map (Verbatim.shift k)) fieldInitializer fieldInitializer c fun found _ =>
      ∀ v ∈ found, v.IsCode ts ∧ (Token.Tames W → v.Tame) := by
  refine .next (.eatPunct _) ?_
  rintro _ c₁ - - (⟨rfl, -⟩ | ⟨rfl, rfl, -⟩)
  · refine .bind expression_steady fun value _ _ _ hvalue => .pure rfl ?_
    rintro v hv
    rw [← Option.mem_some.mp hv]
    exact hvalue.2
  · exact .next (.expectPunct _) fun _ _ _ _ _ => .pure rfl fun _ h => by cases h

theorem namePart_steady :
    Steady.Round k ts W (Token.shift k 0) namePart namePart (fun _ => True) c := by
  refine .ahead ?_
  rw [← List.map_drop, Lookahead.atPunct_shift, Lookahead.atIdent_shift]
  refine .ite (fun hpart => ?_) fun _ => .round_ended rfl fun _ _ => trivial
  refine .bind (.take 2) ?_
  rintro run c₁ - - ⟨hrange, hrun, -, -⟩
  refine .round_goes_on rfl (fun _ _ => trivial) (hrange.lt_of_ne_nil ?_)
  -- The dot is ahead.
  rintro rfl
  rcases List.take_eq_nil_iff.mp hrun.symm with htwo | hnil
  · cases htwo
  · rw [hnil] at hpart
    cases hpart

theorem memberName_steady :
    Steady k ts W id memberName memberName c fun name c' =>
      c.position < c'.position ∧ (Token.Tames W → Paired name.toList) := by
  refine .position ?_
  refine .next .expectIdent fun _ c₁ _ _ hname => ?_
  refine .bind (.rounds fun _ _ => namePart_steady) fun _ c₂ _ hle _ => ?_
  refine .bind (.since (by omega)) ?_
  rintro run _ - - ⟨rfl, -, -, hall⟩
  refine .pure (Token.join_shift k run) ⟨by omega, fun hW => ?_⟩
  exact Token.paired_join fun t ht => hW t (hall t ht)

end Grammar

end ClassSugar
