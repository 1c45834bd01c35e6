import ClassSugar.Grammar.CompilationUnit
import ClassSugar.Proofs.PassedLeaves
import ClassSugar.Proofs.PlainPages
import ClassSugar.Proofs.TakenTokens

/-!
# Reading a page

The tokens of a page are known (`Sheet.Plain.exists_tokens`), so the readers of the grammar can be
run on them: a reader is a function of the cursor, and on a cursor whose next tokens are known each
of its steps is an equation. The equations of the basic readers are simp lemmas here, and the lemmas
about the larger readers say what they give and where they stop.

* `Grammar.member_run`, `Grammar.bodyRound_run` — one slot is read as one member.
* `Grammar.rounds_body` — the slots of a page, by induction.
* `Sheet.Plain.exists_parse` — a page has a tree, which `Sheet.relay` is about: its values start in
  the columns that they have on the page, and so their later lines lose what stands before them.
-/

namespace ClassSugar

/-! ### Steps of readers -/

namespace Token.Shows

variable {t : Token} {w : String}

theorem ident? (h : t.Shows .ident w) : t.ident? = some w := by
  rw [Token.ident?, if_pos h.kind, h.text]

theorem isPunct_word (h : t.Shows .ident w) (p : String) : t.isPunct p = false := by
  rw [Token.isPunct, h.kind]
  rfl

theorem isIdent_word (h : t.Shows .ident w) (p : String) : t.isIdent p = (w == p) := by
  rw [Token.isIdent, h.kind, h.text]
  rfl

theorem isPunct_eq (h : t.Shows .punct w) (p : String) : t.isPunct p = (w == p) := by
  rw [Token.isPunct, h.kind, h.text]
  rfl

theorem isIdent_eq (h : t.Shows .punct w) (p : String) : t.isIdent p = false := by
  rw [Token.isIdent, h.kind]
  rfl

end Token.Shows

namespace Reader

variable {α β : Type} {c c' c'' : Cursor} {w : String} {n : Nat}

@[simp] theorem ahead_apply : ahead c = .ok c.ahead c := rfl
@[simp] theorem position_apply : position c = .ok c.position c := rfl
@[simp] theorem since_apply : since n c = .ok (c.since n) c := rfl
@[simp] theorem atEnd_apply : atEnd c = .ok c.ahead.isEmpty c := rfl
@[simp] theorem peek_apply : peek c = .ok c.current c := rfl
@[simp] theorem atPunct_apply : atPunct w c = .ok (Lookahead.atPunct w c.ahead) c := rfl
@[simp] theorem atWord_apply : atWord w c = .ok (Lookahead.atWord w c.ahead) c := rfl
@[simp] theorem take_apply : take n c = .ok (c.ahead.take n) (c.advance n) := rfl
@[simp] theorem skip_apply : skip c = .ok () (c.advance 1) := rfl
@[simp] theorem pure_apply {a : α} : (pure a : Reader α) c = .ok a c := rfl

@[simp] theorem map_apply {f : α → β} {p : Reader α} : (f <$> p) c =
    match p c with
    | .ok a c' => .ok (f a) c'
    | .error e c' => .error e c' := by
  rw [map_eq_pure_bind, bind_apply]
  rfl

@[simp] theorem ite_apply {b : Prop} [Decidable b] {p q : Reader α} :
    (if b then p else q) c = if b then p c else q c := by
  split <;> rfl

@[simp] theorem rounds_bind_apply {round : Reader (List α × Bool)} {f : List α → Reader β} :
    (bind (m := Reader) (rounds round) f) c =
      match rounds round c with
      | .ok a c' => f a c'
      | .error e c' => .error e c' := by
  rw [bind_apply (rounds round)]
  cases rounds round c <;> rfl

theorem rounds_of_stop {round : Reader (List α × Bool)} {as : List α}
    (h : round c = .ok (as, false) c') : rounds round c = .ok as c' := by
  rw [rounds, h]

theorem rounds_of_step {round : Reader (List α × Bool)} {as bs : List α}
    (h : round c = .ok (as, true) c') (hlt : c'.ahead.length < c.ahead.length)
    (hrest : rounds round c' = .ok bs c'') : rounds round c = .ok (as ++ bs) c'' := by
  rw [rounds, h]
  simp only [hlt, if_true, hrest]

theorem nested_of_body {body : (β → Reader α) → β → Reader α} {b : β}
    {r : EStateM.Result SyntaxError Cursor α} (h : ∀ self, body self b c = r) :
    nested body b c = r := by
  rw [nested]
  exact h _

theorem takeComments_none {t : Token} {behind rest : List Token} {last : Token}
    (h : t.leading = []) :
    takeComments ⟨behind, t :: rest, last⟩ = .ok [] ⟨behind, t :: rest, last⟩ := by
  obtain ⟨kind, text, span, line, column, leading, gap⟩ := t
  obtain rfl : leading = [] := h
  rfl

theorem takeComments_end {behind : List Token} {last : Token} (h : last.leading = []) :
    takeComments ⟨behind, [], last⟩ = .ok [] ⟨behind, [], last⟩ := by
  obtain ⟨kind, text, span, line, column, leading, gap⟩ := last
  obtain rfl : leading = [] := h
  rfl

end Reader

attribute [simp] Reader.bind_apply Reader.eatPunct Reader.eatWord Reader.expectPunct
  Reader.expectIdent Lookahead.atPunct Lookahead.atWord Lookahead.startsWith Cursor.advance
  Cursor.current

namespace Grammar

open Reader

variable (ext : Extensions) (behind rest : List Token) (last : Token)

theorem isDeclarationStart_word {t : Token} {w : String} (h : t.Shows .ident w) :
    isDeclarationStart ext (t :: rest) = startsDeclarationWords ext (t :: rest) := by
  have hbracket : Lookahead.atPunct "[" (t :: rest) = false := h.isPunct_word "["
  rw [isDeclarationStart, afterAttributes?, hbracket]
  rfl

theorem attributes_word {t : Token} {w : String} (h : t.Shows .ident w) :
    attributes ⟨behind, t :: rest, last⟩ = .ok [] ⟨behind, t :: rest, last⟩ := by
  refine rounds_of_stop ?_
  simp [attributeSection, h.isPunct_word]

/-! ### Slots -/

section Slot

variable {s : Slot} {type name operator semi : Token} {run : List Token}
  (h : s.Written type name operator run semi)

include h

theorem expression_run :
    expression ⟨behind, run ++ semi :: rest, last⟩ =
      .ok (Verbatim.ofTokens run) ⟨semi :: (run.reverse ++ behind), rest, last⟩ := by
  obtain ⟨t, more, hrun, -⟩ := h.first
  have hne : run ≠ [] := hrun ▸ List.cons_ne_nil t more
  simp [expression, takeUntil, h.count, hne]

theorem typedMember_run (position : Nat) :
    typedMember ext ⟨position, [], []⟩ ⟨s.type⟩ s.name
        ⟨behind, operator :: (run ++ semi :: rest), last⟩ =
      .ok (s.member (Verbatim.ofTokens run) (Token.spanOf (Cursor.since position
          ⟨semi :: (run.reverse ++ operator :: behind), rest, last⟩)))
        ⟨semi :: (run.reverse ++ operator :: behind), rest, last⟩ := by
  have hoperator := h.operator.isPunct_eq
  unfold Slot.member
  unfold Slot.operator at hoperator
  split at hoperator <;>
    simp [typedMember, property, fieldInitializer, expression_run _ _ _ h, *]

theorem typeRest_word (hs : s.Plain) :
    ∃ tail, Lookahead.typeRest (type :: name :: rest) = some tail ∧ tail.read = [type] ∧
      tail.rest = name :: rest := by
  have hstart : Lookahead.startsTypeName type = true := by
    rw [Lookahead.startsTypeName, h.type.ident?]
    simpa using hs.type.2.1
  have hname : Lookahead.Derives .type [type] := .name hstart (.bare .stop) .none
  obtain ⟨tail, htail, hleft⟩ := Lookahead.exists_typeRest_append hname
    (.of_ident? (by rw [h.name.ident?]; rfl))
  have hsplit := tail.read_append_rest
  rw [hleft] at hsplit
  exact ⟨tail, htail, List.append_cancel_right hsplit, hleft⟩

theorem memberName_run :
    memberName ⟨behind, name :: operator :: (run ++ semi :: rest), last⟩ =
      .ok s.name ⟨name :: behind, operator :: (run ++ semi :: rest), last⟩ := by
  have hdot : (s.operator == ".") = false := by
    unfold Slot.operator
    split <;> decide
  have hparts : rounds namePart ⟨name :: behind, operator :: (run ++ semi :: rest), last⟩ =
      .ok [] ⟨name :: behind, operator :: (run ++ semi :: rest), last⟩ := by
    refine rounds_of_stop ?_
    simp [namePart, h.operator.isPunct_eq, hdot]
  simp [memberName, h.name.ident?, hparts, Cursor.since, Cursor.position, Token.join,
    Token.joinAfter, h.name.text]

theorem member_run (hs : s.Plain) (className : String) :
    ∃ span, member ext className
        ⟨behind, type :: name :: operator :: (run ++ semi :: rest), last⟩ =
      .ok (some (s.member (Verbatim.ofTokens run) span))
        ⟨semi :: (run.reverse ++ operator :: name :: type :: behind), rest, last⟩ := by
  obtain ⟨tail, htail, hread, -⟩ := typeRest_word (operator :: (run ++ semi :: rest)) h hs
  obtain ⟨-, -, hmodifier, hraw, hstatement, -⟩ := hs.type
  have hnew : s.type ≠ "new" := fun heq => hstatement (heq ▸ by decide)
  have hspecial : s.name ≠ "operator" ∧ s.name ≠ "this" := by
    constructor <;> intro heq <;> exact absurd hs.name.2 (by rw [heq]; decide)
  refine ⟨Token.spanOf (Cursor.since behind.length
    ⟨semi :: (run.reverse ++ operator :: name :: type :: behind), rest, last⟩), ?_⟩
  simp [member, attributes_word _ _ _ h.type, modifierCount, h.type.ident?, hmodifier, hnew,
    h.type.isPunct_word, h.type.isIdent_word, hraw, h.name.isPunct_word, typeName, htail, hread,
    h.name.isIdent_word, hspecial, memberName_run _ _ _ h, typedMember_run _ _ _ _ h,
    Cursor.position, Token.join, Token.joinAfter, h.type.text]

/-- The lines of the value that is read. -/
theorem lines_relay (hs : s.Plain) :
    s.relay.lines =
      reindent (Verbatim.ofTokens run).column (Verbatim.ofTokens run).text.toList := by
  obtain ⟨t, more, rfl, hcolumn⟩ := h.first
  obtain ⟨first, rest, hlines, htidy, hsolid⟩ := hs.exists_lines
  change _ = reindent t.column (Token.spell (t :: more)).toList
  rw [hcolumn, h.spell, Slot.relay, hlines]
  exact (reindent_onPage htidy hsolid s.column).symm

/-- **A slot is read as a member**, and not as a statement or a nested type. -/
theorem bodyRound_run (hs : s.Plain) (nestedType : Reader Declaration) (className : String) :
    ∃ item, s.relay.Describes item ∧ bodyRound ext nestedType className
        ⟨behind, type :: name :: operator :: (run ++ semi :: rest), last⟩ =
      .ok ([item], true)
        ⟨semi :: (run.reverse ++ operator :: name :: type :: behind), rest, last⟩ := by
  obtain ⟨span, hmember⟩ := member_run ext behind rest last h hs className
  obtain ⟨tail, htail, -, hrest⟩ := typeRest_word (operator :: (run ++ semi :: rest)) h hs
  obtain ⟨-, -, hmodifier, hraw, hstatement, hdeclaration, hword⟩ := hs.type
  have hnew : s.type ≠ "new" := fun heq => hstatement (heq ▸ by decide)
  have hname : s.name ≠ "is" ∧ s.name ≠ "as" := by
    constructor <;> intro heq <;> exact absurd hs.name.2 (by rw [heq]; decide)
  have hsignature :
      startsSignature (type :: name :: operator :: (run ++ semi :: rest)) = true := by
    rw [startsSignature, htail]
    simp [hrest, h.name.ident?, hname]
  have hstart :
      isDeclarationStart ext (type :: name :: operator :: (run ++ semi :: rest)) = false := by
    simp only [List.mem_cons, List.not_mem_nil, not_or] at hword
    simp [isDeclarationStart_word _ _ h.type, startsDeclarationWords, h.type.ident?, hword,
      hdeclaration]
  refine ⟨_, ⟨_, span, rfl, lines_relay h hs⟩, ?_⟩
  simp [bodyRound, takeComments_none h.type.leading, h.type.isPunct_word, bodyItem,
    isStatementStart, h.type.ident?, hmodifier, hraw, hnew, hstatement, hstart, h.name.isPunct_word,
    hsignature, attempt, hmember]
  rfl

end Slot

/-! ### Sheets -/

/-- The body of a class, by induction over its slots. -/
theorem rounds_body {slots : List Slot} {body : List (List Token)} {closing : Token}
    (h : List.Forall₂ Slot.ReadsAs slots body) (hslots : ∀ s ∈ slots, s.Plain)
    (hclosing : closing.Shows .punct "\x7d") (nestedType : Reader Declaration)
    (className : String) :
    ∃ items, List.Forall₂ Slot.Describes (slots.map Slot.relay) items ∧
      rounds (bodyRound ext nestedType className) ⟨behind, body.flatten ++ closing :: rest, last⟩ =
        .ok items ⟨body.flatten.reverse ++ behind, closing :: rest, last⟩ := by
  induction h generalizing behind with
  | nil =>
    refine ⟨[], .nil, rounds_of_stop ?_⟩
    simp [bodyRound, takeComments_none hclosing.leading, hclosing.isPunct_eq]
  | cons hread _ ih =>
    obtain ⟨hs, hslots⟩ := List.forall_mem_cons.mp hslots
    obtain ⟨type, name, operator, run, semi, hwritten, rfl⟩ := hread
    obtain ⟨item, hitem, hround⟩ := bodyRound_run ext behind _ last hwritten hs nestedType className
    obtain ⟨items, hitems, hrounds⟩ := ih _ hslots
    refine ⟨item :: items, .cons hitem hitems, ?_⟩
    simpa using rounds_of_step hround (by simp; omega) hrounds

section Sheet

variable {s : Sheet} {keyword name opening closing : Token} {body : List (List Token)}
  (h : s.Written keyword name opening body closing) (hs : s.Plain)

include h hs

theorem declarationWith_run (nestedType : Reader Declaration) :
    ∃ d, s.relay.Describes (.declaration d) ∧ declarationWith ext nestedType
        ⟨[], keyword :: name :: opening :: (body.flatten ++ [closing]), last⟩ =
      .ok d ⟨closing :: (body.flatten.reverse ++ [opening, name, keyword]), [], last⟩ := by
  obtain ⟨items, hitems, hrounds⟩ :=
    rounds_body ext [opening, name, keyword] [] last h.body hs.slots h.closing nestedType s.name
  have hconstraints : ∀ stop behind ts, rounds (constraint stop) ⟨behind, opening :: ts, last⟩ =
      .ok [] ⟨behind, opening :: ts, last⟩ := by
    intro stop behind ts
    refine rounds_of_stop ?_
    simp [constraint, h.opening.isIdent_eq]
  let source := Verbatim.ofTokens (Cursor.since 0
    ⟨closing :: (body.flatten.reverse ++ [opening, name, keyword]), [], last⟩)
  refine ⟨_, ⟨source, source.span, items, hitems, rfl⟩, ?_⟩
  simp [declarationWith, attributes_word _ _ _ h.keyword, takeWords, h.keyword.ident?,
    declarationKind, h.name.ident?, typeParams, h.opening.isPunct_eq, headerEntries, constraints, hconstraints,
    classBody, hrounds, h.closing.isPunct_eq]
  exact ⟨rfl, rfl, rfl⟩

/-- One declaration is found, and then the end of the page. -/
theorem items_run (hlast : last.leading = []) :
    ∃ found c, s.relay.Describes found ∧ items ext false
        ⟨[], keyword :: name :: opening :: (body.flatten ++ [closing]), last⟩ = .ok [found] c := by
  obtain ⟨d, hd, hread⟩ : ∃ d, s.relay.Describes (.declaration d) ∧ declaration ext
        ⟨[], keyword :: name :: opening :: (body.flatten ++ [closing]), last⟩ =
      .ok d ⟨closing :: (body.flatten.reverse ++ [opening, name, keyword]), [], last⟩ := by
    rw [declaration, nested]
    exact declarationWith_run ext last h hs _
  have hround : ∀ self, itemsRound ext self false
      ⟨[], keyword :: name :: opening :: (body.flatten ++ [closing]), last⟩ =
        .ok ([.declaration d], true)
          ⟨closing :: (body.flatten.reverse ++ [opening, name, keyword]), [], last⟩ := by
    intro self
    simp [itemsRound, takeComments_none h.keyword.leading, item, isUsingStart,
      h.keyword.isIdent_word, isTargetedAttribute, h.keyword.isPunct_word,
      isDeclarationStart_word _ _ h.keyword, startsDeclarationWords, h.keyword.ident?, hread]
  have hstop : ∀ self behind, itemsRound ext self false ⟨behind, [], last⟩ =
      .ok ([], false) ⟨behind, [], last⟩ := by
    intro self behind
    simp [itemsRound, takeComments_end hlast]
  exact ⟨.declaration d, ⟨closing :: (body.flatten.reverse ++ [opening, name, keyword]), [], last⟩,
    hd, nested_of_body fun self =>
      rounds_of_step (hround self) (by simp) (rounds_of_stop (hstop self _))⟩

end Sheet

end Grammar

/-- **A page is read back**, with the lines that its values have there. -/
theorem Sheet.Plain.exists_parse {s : Sheet} (hs : s.Plain) (ext : Extensions) (base : Nat) :
    ∃ item, s.relay.Describes item ∧
      CompilationUnit.parse ext (String.ofList s.text) base = .ok ⟨[item]⟩ := by
  obtain ⟨keyword, name, opening, body, closing, last, hwritten, hlast, htokens⟩ :=
    hs.exists_tokens base
  obtain ⟨item, c, hitem, hitems⟩ := Grammar.items_run ext last hwritten hs hlast
  refine ⟨item, hitem, ?_⟩
  have hcursor : Cursor.ofTokens (keyword :: name :: opening :: (body.flatten ++ [closing, last])) =
      ⟨[], keyword :: name :: opening :: (body.flatten ++ [closing]), last⟩ := by
    simp [Cursor.ofTokens, List.dropLast_cons_of_ne_nil, List.getLast?_cons]
  rw [CompilationUnit.parse, htokens]
  simp only [hcursor, hitems]

end ClassSugar
