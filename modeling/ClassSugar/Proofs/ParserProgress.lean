import ClassSugar.Proofs.SourceText
import ClassSugar.Proofs.SteadyUnit
import ClassSugar.Token.Stream

/-!
# Reading always gets on

The readers of the grammar are total because `rounds` and `nested` look at the number of tokens
ahead and give up where it does not fall. This module shows that they never have to. On every
sequence of tokens with the end of the file behind it

* each round of each repetition ends it, fails for a reason of the grammar, or takes a token, and
  the repetition is the plain loop over its rounds, of which there are no more than tokens ahead;
* declarations and lists of items are their own bodies, with no guard at the recursive call;
* looking ahead from an index finds an index further on, and none behind the end of the file;
* the tokens that are kept as text are those between two indices in order, neither of them behind
  the end of the file.

`parser_gets_on` puts these together. All of them come from the statements that the readers are
steady.
-/

namespace ClassSugar

open Reader

/-! ### Repetitions -/

/-- On the tokens, every round of the repetition ends it, fails or gets on, and so the rounds make
up the plain loop. -/
structure Reader.GetsOn {α : Type} (ts : List Token) (round : Reader (List α × Bool)) : Prop where
  /-- A round that wants another one after it has taken a token. -/
  moves : ∀ c found more c', c.On ts → round c = .ok (found, more) c' →
    c'.On ts ∧ c.position ≤ c'.position ∧ (more = true → c.position < c'.position)
  /-- A round fails for a reason of the grammar. -/
  fails : ∀ c e c', c.On ts → round c = .error e c' →
    c'.On ts ∧ c.position ≤ c'.position ∧ e.cause ≠ .stalled
  /-- The guard of the repetition makes no difference. -/
  loop : ∀ c, c.On ts →
    ∃ n, n ≤ ts.length - c.position + 1 ∧ Reader.Loop round c n (Reader.rounds round c)

theorem Reader.GetsOn.of_rounds {α : Type} {ts : List Token} {f : α → α}
    {round : Reader (List α × Bool)} {P : α → Prop}
    (h : ∀ c, Steady.Round 0 ts (fun _ => True) f round round P c) : GetsOn ts round where
  -- That a reader is steady is about a source and a moved copy of it; here nothing is moved.
  moves c found more c' hc hround := by
    obtain ⟨-, hon, hle, -, hmoves⟩ := (h c).of_ok hc.within hround
    exact ⟨hon.toOn, hle, hmoves⟩
  fails c e c' hc hround := by
    obtain ⟨-, hon, hle, hcause⟩ := (h c).of_error hc.within hround
    exact ⟨hon.toOn, hle, hcause⟩
  loop c hc := by
    obtain ⟨n, hn, hloop⟩ := loop_of_rounds h hc
    have hlength := hc.length_eq
    exact ⟨n, by omega, hloop⟩

namespace Grammar

variable {ts : List Token} {c : Cursor}

/-! ### Recursion without a guard -/

/-- **A declaration is its own body.** -/
theorem declaration_eq (ext : Extensions) (hc : c.On ts) :
    declaration ext c = declarationWith ext (declaration ext) c :=
  nested_eq (Q := ReadBetween ext ts fun _ => True)
    (fun _ _ _ _ h => declarationWith_steady (h ())) hc

/-- **A list of items is its own rounds.** -/
theorem items_eq (ext : Extensions) (inBraces : Bool) (hc : c.On ts) :
    items ext inBraces c = rounds (itemsRound ext (items ext) inBraces) c :=
  nested_eq (Q := fun _ (found : List Item) _ => ∀ i ∈ found, i.Drawn ext ts fun _ => True)
    (fun _ _ inBraces _ h => items_body_steady h inBraces) hc

/-! ### All of it -/

/-- The repetitions of the grammar get on. -/
structure RepetitionsGetOn (ext : Extensions) (ts : List Token) : Prop where
  items : ∀ inBraces, GetsOn ts (itemsRound ext (items ext) inBraces)
  classBody : ∀ className, GetsOn ts (bodyRound ext (declaration ext) className)
  block : GetsOn ts blockRound
  attributes : GetsOn ts attributeSection
  attributeSection : GetsOn ts attributeEntry
  parameters : GetsOn ts (parameterRound ext)
  constraints : ∀ stop, GetsOn ts (constraint stop)
  bases : GetsOn ts headerEntry
  memberName : GetsOn ts namePart

theorem repetitionsGetOn (ext : Extensions) (ts : List Token) : RepetitionsGetOn ext ts where
  items inBraces := .of_rounds fun _ =>
    itemsRound_steady (fun inBraces' _ _ => items_steady ext inBraces') inBraces
  classBody className := .of_rounds fun _ =>
    bodyRound_steady className fun _ _ => declaration_steady ext
  block := .of_rounds fun _ => blockRound_steady
  attributes := .of_rounds fun _ => attributeSection_steady
  attributeSection := .of_rounds fun _ => attributeEntry_round
  parameters := .of_rounds fun _ => parameterRound_steady ext
  constraints stop := .of_rounds fun _ => constraint_steady fun t => by rw [Token.shift_zero]; rfl
  bases := .of_rounds fun _ => headerEntry_steady
  memberName := .of_rounds fun _ => namePart_steady

/-- Looking ahead from an index, something is found between it and the end of the file. -/
structure LooksInRange (ts : List Token) : Prop where
  /-- The index behind a type. -/
  type : ∀ i rest, Lookahead.typeRest (ts.drop i) = some rest →
    ∃ j, i < j ∧ j ≤ ts.length ∧ rest.rest = ts.drop j
  /-- The index behind a bracket group. -/
  group : ∀ i rest, Lookahead.skipGroup (ts.drop i) = some rest →
    ∃ j, i < j ∧ j ≤ ts.length ∧ rest.rest = ts.drop j
  /-- The index of a token that passes a test. -/
  token : ∀ angles stop i n, Lookahead.countUntil angles stop 0 (ts.drop i) = .ok n →
    i ≤ i + n ∧ i + n < ts.length
  /-- The index behind a statement. -/
  statement : ∀ loop depth i n, Lookahead.statementLength loop depth (ts.drop i) = .ok n →
    i < i + n ∧ i + n ≤ ts.length
  /-- The index behind the modifiers of a member. -/
  modifiers : ∀ i ≤ ts.length, i ≤ i + modifierCount (ts.drop i) ∧
    i + modifierCount (ts.drop i) ≤ ts.length
  /-- The index behind something kept as written. -/
  raw : ∀ i rest, Lookahead.rawRest (ts.drop i) = .ok rest →
    ∃ j, i < j ∧ j ≤ ts.length ∧ rest.rest = ts.drop j

/-- What is left of the tokens behind an index starts at an index further on. -/
theorem exists_drop_of_tail {i : Nat} (rest : Text.Tail (ts.drop i)) :
    ∃ j, i < j ∧ j ≤ ts.length ∧ rest.rest = ts.drop j := by
  -- A tail is a suffix and shorter, and the index is told by its length.
  have hlength := rest.shorter
  rw [List.length_drop] at hlength
  have hsuffix : rest.rest <:+ ts := rest.isSuffix.trans (List.drop_suffix i ts)
  refine ⟨ts.length - rest.rest.length, by omega, Nat.sub_le _ _, ?_⟩
  exact List.suffix_iff_eq_drop.mp hsuffix

/-- Modifiers are counted among the tokens that are there. -/
theorem modifierCount_le (ts : List Token) : modifierCount ts ≤ ts.length := by
  fun_induction modifierCount ts with
  | case1 => exact Nat.le_refl 0
  | case2 t r word hword hmodifier ih => exact Nat.succ_le_succ ih
  | case3 => exact Nat.zero_le _
  | case4 => exact Nat.zero_le _

theorem looksInRange (ts : List Token) : LooksInRange ts where
  type _ rest _ := exists_drop_of_tail rest
  group _ rest _ := exists_drop_of_tail rest
  -- The token that was looked for stands behind those that were counted.
  token angles stop i n h := by
    obtain ⟨t, rest, hsplit, -⟩ := Lookahead.exists_of_countUntil h
    have hlength := congrArg List.length hsplit
    rw [List.length_append, List.length_take, List.length_cons, List.length_drop] at hlength
    exact ⟨Nat.le_add_right i n, by omega⟩
  statement loop depth i n h := by
    have hbounds := bounds_of_statementLength h
    rw [List.length_drop] at hbounds
    omega
  modifiers i hi := by
    have hle := modifierCount_le (ts.drop i)
    rw [List.length_drop] at hle
    omega
  raw _ rest _ := exists_drop_of_tail rest

/-- What is kept as text is the text of a range of the tokens, the ends of which are in order and
not behind the end of the file. -/
structure TextsInRange (ext : Extensions) (ts : List Token) : Prop where
  /-- A statement is as long as it was counted: no token is missing where it is cut out. -/
  statement : ∀ c v c', c.On ts → statement c = .ok v c' →
    ∃ n, Lookahead.statementLength (Lookahead.atWord "do" c.ahead) 0 c.ahead = .ok n ∧
      c'.position = c.position + n ∧ v.CutFrom ts c.position (c.position + n)
  rawItem : ∀ c v c', c.On ts → rawItem c = .ok v c' → v.CutFrom ts c.position c'.position
  /-- The semicolon behind an expression is taken, and is no part of it. -/
  expression : ∀ c v c', c.On ts → expression c = .ok v c' →
    v.CutFrom ts c.position (c'.position - 1)
  propertyBody : ∀ c v c', c.On ts → propertyBody c = .ok (.raw v) c' →
    v.CutFrom ts c.position c'.position
  declaration : ∀ c d c', c.On ts → declaration ext c = .ok d c' →
    d.source.CutFrom ts c.position c'.position
  /-- An attribute with a target is an item of its own. -/
  item : ∀ c v c', c.On ts → item ext (items ext) c = .ok (.raw v) c' →
    v.CutFrom ts c.position c'.position
  attributeEntry : ∀ c found c', c.On ts → attributeEntry c = .ok found c' → ∀ text ∈ found.1,
    Token.SpelledFrom ts c.position (c'.position - 1) text
  defaultValue : ∀ c text c', c.On ts → defaultValue c = .ok (some text) c' →
    Token.SpelledFrom ts (c.position + 1) c'.position text
  /-- The arguments stand behind a colon, a keyword and a parenthesis. -/
  constructorCall : ∀ c text c', c.On ts → constructorCall c = .ok (some text) c' →
    ∃ keyword args, text = keyword ++ "(" ++ args ++ ")" ∧
      Token.SpelledFrom ts (c.position + 3) (c'.position - 1) args
  headerEntry : ∀ c found c', c.On ts → headerEntry c = .ok found c' →
    ∀ name args, .base ⟨name, some args⟩ ∈ found.1 → ∃ i j, Token.SpelledFrom ts i j args

theorem textsInRange (ext : Extensions) (ts : List Token) : TextsInRange ext ts where
  -- What each reader answers is part of its being steady.
  statement c v c' hc hrun := by
    obtain ⟨⟨n, hn, -, hposition⟩, hcut, -⟩ := statement_steady.holds hc hrun
    exact ⟨n, hn, hposition, hposition ▸ hcut⟩
  rawItem c v c' hc hrun := (rawItem_steady.holds hc hrun).2.1
  expression c v c' hc hrun := (expression_steady.holds hc hrun).1
  propertyBody c v c' hc hrun :=
    ((propertyBody_steady.holds hc hrun).1 v (List.mem_singleton.mpr rfl)).1
  declaration c d c' hc hrun := ((declaration_steady ext).holds hc hrun).source
  item c v c' hc hrun :=
    ((item_steady fun inBraces _ _ => items_steady ext inBraces).holds hc hrun).2.1 v rfl
  attributeEntry c found c' hc hrun := (attributeEntry_steady.holds hc hrun).2
  defaultValue c text c' hc hrun := defaultValue_steady.holds hc hrun text rfl
  constructorCall c text c' hc hrun := constructorCall_steady.holds hc hrun text rfl
  headerEntry c found c' hc hrun name args hmem :=
    (headerEntry_steady.holds hc hrun).1 _ hmem name args rfl

/-- Whatever the tokens are, reading them as a file gets on and stays in range. -/
structure Progress (ext : Extensions) (ts : List Token) (eof : Token) : Prop where
  /-- Reading starts on the tokens. -/
  starts : (Cursor.ofTokens (ts ++ [eof])).On ts ∧ (Cursor.ofTokens (ts ++ [eof])).position = 0
  /-- However a cursor is moved, it stays on the tokens. -/
  stays : ∀ c : Cursor, c.On ts →
    (∀ n, (c.advance n).On ts) ∧ (∀ i, (c.rewind i).On ts) ∧ c.dropComments.On ts
  /-- A cursor on the tokens is not behind the end of the file, and taking tokens that are there
  moves it by as many. -/
  inRange : ∀ c : Cursor, c.On ts → c.position ≤ ts.length ∧
    ∀ n, c.position + n ≤ ts.length → (c.advance n).position = c.position + n
  repetitions : RepetitionsGetOn ext ts
  looks : LooksInRange ts
  texts : TextsInRange ext ts
  /-- A nested declaration is read by the same reader, without a guard. -/
  declarations : ∀ c, c.On ts → declaration ext c = declarationWith ext (declaration ext) c
  /-- So are the items of a namespace. -/
  namespaces : ∀ inBraces c, c.On ts →
    items ext inBraces c = rounds (itemsRound ext (items ext) inBraces) c
  /-- Reading ends, with the items of the file or with an error of the grammar. -/
  ends :
    (∃ found c', items ext false (Cursor.ofTokens (ts ++ [eof])) = .ok found c' ∧ c'.On ts) ∨
    ∃ e c', items ext false (Cursor.ofTokens (ts ++ [eof])) = .error e c' ∧ c'.On ts ∧
      e.cause ≠ .stalled

/-- **The parser always gets on and stays in range.** -/
theorem parser_gets_on (ext : Extensions) (ts : List Token) {eof : Token}
    (heof : eof.isEof = true) : Progress ext ts eof where
  starts := ⟨.ofTokens heof, rfl⟩
  -- No step of a cursor leads off the tokens, since none goes behind the end of the file.
  stays _ hc := ⟨hc.advance, hc.rewind, hc.dropComments⟩
  inRange c hc := by
    have hlength := hc.length_eq
    refine ⟨hc.position_le, fun n hn => ?_⟩
    rw [Cursor.position_advance, Nat.min_eq_left (by omega)]
  repetitions := repetitionsGetOn ext ts
  looks := looksInRange ts
  texts := textsInRange ext ts
  declarations _ hc := declaration_eq ext hc
  namespaces inBraces _ hc := items_eq ext inBraces hc
  -- Both ends of a run, with the items or with an error, are ends of a steady reader.
  ends := by
    have hon : (Cursor.ofTokens (ts ++ [eof])).On ts := .ofTokens heof
    cases hrun : items ext false (Cursor.ofTokens (ts ++ [eof])) with
    | ok found c' =>
      obtain ⟨-, hon', -⟩ := (items_steady (k := 0) ext false).of_ok hon.within hrun
      exact .inl ⟨found, c', rfl, hon'.toOn⟩
    | error e c' =>
      obtain ⟨-, hon', -, hcause⟩ :=
        (items_steady (k := 0) ext false).of_error hon.within hrun
      exact .inr ⟨e, c', rfl, hon'.toOn, hcause⟩

/-- A source that ends in the middle of a condition, with a parameter list that is not closed. -/
def brokenOff : String :=
  "[a] class A : B(1) \x7b void M(int x \x7b if (y"

theorem parser_gets_on_brokenOff :
    ∃ ts eof, Token.tokenize brokenOff 0 = .ok (ts ++ [eof]) ∧
      ts.map Token.text = ["[", "a", "]", "class", "A", ":", "B", "(", "1", ")", "\x7b", "void",
        "M", "(", "int", "x", "\x7b", "if", "(", "y"] ∧
      eof.isEof = true ∧ Progress {} ts eof := by
  have hrun : (Token.tokenize brokenOff 0).toOption.map (fun all =>
        (all.map Token.text, all.getLast?.map Token.isEof)) =
      some (["[", "a", "]", "class", "A", ":", "B", "(", "1", ")", "\x7b", "void", "M", "(", "int",
        "x", "\x7b", "if", "(", "y", ""], some true) := by
    decide +kernel
  obtain ⟨all, h, hrun⟩ := exists_ok_of_map hrun
  obtain ⟨htexts, hlast⟩ := Prod.mk.inj hrun
  -- The end of the file is the last token, and the others are the texts in question.
  obtain ⟨eof, heof, hend⟩ := Option.map_eq_some_iff.mp hlast
  obtain ⟨ts, rfl⟩ := List.getLast?_eq_some_iff.mp heof
  rw [List.map_append] at htexts
  have hinit := congrArg List.dropLast htexts
  rw [List.map_singleton, List.dropLast_concat] at hinit
  exact ⟨ts, eof, h, hinit, hend, parser_gets_on {} ts hend⟩

end Grammar

end ClassSugar
