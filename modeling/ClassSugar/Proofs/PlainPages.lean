import Mathlib.Data.List.Forall2
import ClassSugar.Grammar.Member
import ClassSugar.Page.Emit
import ClassSugar.Proofs.LaidCode

/-!
# Pages of plain classes

A *sheet* is what is written about a class with fields and arrow properties and nothing else: its
name, and a *slot* for each member, with the lines in which the value of the member is laid out. The
page of a sheet (`Sheet.text`) is the text of such a class.

* `Slot.Plain`, `Sheet.Plain` — what is asked of names and values. Names must not be words with a
  meaning of their own; a value must be code without comments and without tokens that span lines.
* `Sheet.Plain.exists_tokens` — the tokens of the page, slot by slot.
* `Slot.Describes`, `Sheet.Describes` — the tree that a sheet is about. The values of `Sheet.relay`
  have the lines that are found when the page is read.
-/

namespace ClassSugar

open ClassSugar.Text ClassSugar.Renaming

/-! ### Slots -/

/-- A member with a value. -/
structure Slot where
  type : String
  name : String
  /-- Whether it is a property with an arrow before its value, and no field. -/
  arrow : Bool
  /-- The lines of the value. -/
  lines : List (List Char)
  deriving DecidableEq

namespace Slot

def operator (s : Slot) : String :=
  if s.arrow then "=>" else "="

/-- What stands before the value. -/
def before (s : Slot) : String :=
  s.type ++ " " ++ s.name ++ " " ++ s.operator ++ " "

/-- The visual column of the value on the page. -/
def column (s : Slot) : Nat :=
  4 + s.before.length

/-- The slot on the page, up to the end of its last line. -/
def row (s : Slot) : List Char :=
  List.replicate 4 ' ' ++ (s.before.toList ++ (onPage 4 s.lines ++ [';', '\n']))

/-- The member with a value. -/
def member (s : Slot) (v : Verbatim) (span : Span) : Member :=
  if s.arrow then .property ⟨[], [], ⟨s.type⟩, s.name, .expression v, none, span⟩
  else .field ⟨[], [], ⟨s.type⟩, s.name, some v, span⟩

/-- The item is a member of this form, and its value is laid out in these lines. -/
def Describes (s : Slot) (item : BodyItem) : Prop :=
  ∃ v span, item = .member (s.member v span) ∧ s.lines = reindent v.column v.text.toList

/-- The slot as it is read off a page: its value starts further right than the lines below it. -/
def relay (s : Slot) : Slot :=
  { s with lines := s.lines.take 1 ++ s.lines.tail.map (relaid 4 s.column) }

/-- The word can be a type, and starts no statement, declaration or other member. -/
def StartsMember (w : String) : Prop :=
  IsName w.toList ∧ (Identifier.isReserved w = false ∨ w ∈ Lookahead.typeKeywords) ∧
    w ∉ Grammar.memberModifiers ∧ w ∉ Grammar.rawMemberWords ∧ w ∉ Grammar.statementWords ∧
    w ∉ Grammar.declarationModifiers ∧ w ∉ ["class", "record", "data", "singleton"]

/-- The type is a word, the name is no reserved word, and the value is code that is ended by the
semicolon behind it. -/
structure Plain (s : Slot) : Prop where
  type : StartsMember s.type
  name : IsName s.name.toList ∧ Identifier.isReserved s.name = false
  value : ∃ column text, s.lines = reindent column text ∧ Token.IsEnded text

/-- The tokens of a slot. -/
structure Written (s : Slot) (type name operator : Token) (run : List Token) (semi : Token) :
    Prop where
  type : type.Shows .ident s.type
  name : name.Shows .ident s.name
  operator : operator.Shows .punct s.operator
  first : ∃ t more, run = t :: more ∧ t.column = s.column
  spell : (Token.spell run).toList = onPage 4 s.lines
  count : ∀ after,
    Lookahead.countUntil false (·.isPunct ";") 0 (run ++ semi :: after) = .ok run.length
  semi : semi.Shows .punct ";"

def ReadsAs (s : Slot) (ts : List Token) : Prop :=
  ∃ type name operator run semi, s.Written type name operator run semi ∧
    ts = type :: name :: operator :: (run ++ [semi])

namespace Plain

variable {s : Slot}

/-- The first line, and what is known of all lines. -/
theorem exists_lines (hs : s.Plain) : ∃ first rest, s.lines = first :: rest ∧
    (∀ line ∈ first :: rest, Tidy line) ∧ Solid (onPage 4 (first :: rest)) := by
  obtain ⟨column, text, hlines, hended⟩ := hs.value
  obtain ⟨first, rest, hcons, htidy⟩ := reindent_tidy column text
  refine ⟨first, rest, hlines.trans hcons, htidy, ?_⟩
  rw [← hcons]
  exact (hended.onPage_eq column).2

theorem mem_before (hs : s.Plain) : ∀ c ∈ s.before.toList, c = ' ' ∨ isBlank c = false := by
  have hname : ∀ w : String, IsName w.toList → ∀ c ∈ w.toList, c = ' ' ∨ isBlank c = false :=
    fun w hw c hc => .inr (isBlank_of_isWordPart (hw.isWordPart c hc))
  have hblank : ∀ c ∈ " ".toList, c = ' ' ∨ isBlank c = false :=
    List.forall_mem_singleton.mpr (.inl rfl)
  have hoperator : ∀ c ∈ s.operator.toList, c = ' ' ∨ isBlank c = false := by
    have hall : (s.operator.toList.all fun c => !isBlank c) = true := by
      unfold operator
      split <;> decide
    exact fun c hc => .inr (by simpa using List.all_eq_true.mp hall c hc)
  simp only [before, String.toList_append, List.forall_mem_append]
  exact ⟨⟨⟨⟨⟨hname _ hs.type.1, hblank⟩, hname _ hs.name.1⟩, hblank⟩, hoperator⟩, hblank⟩

/-- A slot from its type on, with the blanks behind its semicolon. -/
theorem lexes (hs : s.Plain) {cs ws : List Char} {T : Place → List Token → Prop}
    (hws : ws.all isBlank = true) (h : Token.Lexes cs T) :
    Token.Lexes (s.before.toList ++ (onPage 4 s.lines ++ ';' :: '\n' :: (ws ++ cs))) fun p ts =>
      p.column = 4 → ∃ read rest q, s.ReadsAs read ∧
        q.column = ((Place.start 0).advance ws).column ∧ T q rest ∧ ts = read ++ rest := by
  have hoperator : s.operator ∈ Token.puncts ∧ '/' ∉ s.operator.toList := by
    unfold operator
    split <;> decide
  obtain ⟨column, text, hlines, hended⟩ := hs.value
  have hvalue := h.value hended column hws
  rw [← hlines] at hvalue
  have hlex := ((hvalue.operator [' '] (by decide) hoperator.1 hoperator.2).name [' '] (by decide)
    hs.name.1).name [' '] (by decide) hs.type.1
  have hbefore : s.before.toList ++ (onPage 4 s.lines ++ ';' :: '\n' :: (ws ++ cs)) =
      s.type.toList ++ ([' '] ++ (s.name.toList ++ ([' '] ++ (s.operator.toList ++ ([' '] ++
        (onPage 4 s.lines ++ ';' :: '\n' :: (ws ++ cs))))))) := by
    simp [before]
  rw [hbefore]
  refine hlex.mono ?_
  rintro p ts ⟨type, _, htype, -, ⟨name, _, hname, -, ⟨operator, _, hoperator, -,
    ⟨t, run, semi, rest, ht, hspell, hcount, hsemi, hT, rfl⟩, rfl⟩, rfl⟩, rfl⟩ hp
  have hcolumn : (p.advance s.before.toList).column = s.column := by
    rw [Place.column_advance_of_unbroken hs.mem_before, hp]
    rfl
  refine ⟨_, rest, _, ⟨type, name, operator, t :: run, semi, ⟨htype, hname, hoperator,
    ⟨t, run, rfl, ?_⟩, hspell, hcount, hsemi⟩, rfl⟩, Place.column_advance_newline _ ws, hT, by simp⟩
  rw [ht, ← hcolumn]
  simp [before, Place.advance_append]

end Plain

end Slot

/-! ### Sheets -/

/-- A class with slots for members. -/
structure Sheet where
  name : String
  slots : List Slot
  deriving DecidableEq

/-- Texts with an empty line between each two of them. -/
def gapped (rows : List (List Char)) : List Char :=
  match rows with
  | [] => []
  | row :: rows => row ++ rows.flatMap fun next => '\n' :: next

namespace Sheet

/-- The page of a sheet. -/
def text (s : Sheet) : List Char :=
  ("class " ++ s.name).toList ++
    '\n' :: '\x7b' :: '\n' :: (gapped (s.slots.map Slot.row) ++ ['\x7d', '\n'])

/-- The item is a class of this form. -/
def Describes (s : Sheet) (item : Item) : Prop :=
  ∃ source span body, List.Forall₂ Slot.Describes s.slots body ∧
    item = .declaration
      ⟨⟨[], [], .plain, false, s.name, none, none, none, [], [], source, span⟩, body⟩

def relay (s : Sheet) : Sheet :=
  { s with slots := s.slots.map Slot.relay }

structure Plain (s : Sheet) : Prop where
  name : IsName s.name.toList
  slots : ∀ slot ∈ s.slots, slot.Plain

/-- The tokens of a class with slots. -/
structure Written (s : Sheet) (keyword name opening : Token) (body : List (List Token))
    (closing : Token) : Prop where
  keyword : keyword.Shows .ident "class"
  name : name.Shows .ident s.name
  opening : opening.Shows .punct "\x7b"
  body : List.Forall₂ Slot.ReadsAs s.slots body
  closing : closing.Shows .punct "\x7d"

end Sheet

open Token

/-- The slots of a sheet up to its closing brace. -/
theorem lexes_slots {slots : List Slot} (hslots : ∀ s ∈ slots, s.Plain) {cs : List Char}
    {T : List Token → Prop} (h : Lexes cs fun _ => T) :
    ∃ text, gapped (slots.map Slot.row) ++ cs =
        List.replicate (if slots = [] then 0 else 4) ' ' ++ text ∧
      Lexes text fun p ts => (slots ≠ [] → p.column = 4) → ∃ body rest,
        List.Forall₂ Slot.ReadsAs slots body ∧ T rest ∧ ts = body.flatten ++ rest := by
  induction slots with
  | nil => exact ⟨cs, rfl, h.mono fun p ts hT _ => ⟨[], ts, .nil, hT, rfl⟩⟩
  | cons s slots ih =>
    obtain ⟨hs, hslots⟩ := List.forall_mem_cons.mp hslots
    obtain ⟨text, htext, hlex⟩ := ih hslots
    -- Between two slots there is an empty line, and no line before the closing brace.
    obtain ⟨ws, hws, hcolumn, hrest⟩ : ∃ ws : List Char, ws.all isBlank = true ∧
        (slots ≠ [] → ((Place.start 0).advance ws).column = 4) ∧
        ((slots.map Slot.row).flatMap fun next => '\n' :: next) ++ cs = ws ++ text := by
      cases slots with
      | nil => exact ⟨[], by simp, by simp, htext⟩
      | cons next slots =>
        exact ⟨'\n' :: List.replicate 4 ' ', by decide, fun _ => rfl, congrArg ('\n' :: ·) htext⟩
    refine ⟨_, ?_, (hs.lexes hws hlex).mono ?_⟩
    · rw [List.map_cons, gapped, List.append_assoc, hrest, if_neg (List.cons_ne_nil _ _)]
      simp only [Slot.row, List.append_assoc, List.cons_append, List.nil_append]
    · intro p ts hslot hp
      obtain ⟨read, rest, q, hread, hq, hrest, rfl⟩ := hslot (hp (List.cons_ne_nil _ _))
      obtain ⟨body, rest, hbody, hT, rfl⟩ := hrest fun hne => hq.trans (hcolumn hne)
      exact ⟨read :: body, rest, .cons hread hbody, hT, by simp⟩

/-- **The tokens of a page.** -/
theorem Sheet.Plain.exists_tokens {s : Sheet} (hs : s.Plain) (base : Nat) :
    ∃ keyword name opening body closing last, s.Written keyword name opening body closing ∧
      last.leading = [] ∧ tokenize (String.ofList s.text) base =
        .ok (keyword :: name :: opening :: (body.flatten ++ [closing, last])) := by
  have hclosing := Lexes.nil.operator (w := "\x7d") ['\n'] (by decide) (by decide) (by decide)
  obtain ⟨text, htext, hlex⟩ := lexes_slots hs.slots
    (T := fun ts => ∃ t last, t.Shows .punct "\x7d" ∧ last.Shows .eof "" ∧ ts = [t, last])
    (hclosing.mono fun p ts ⟨t, _, ht, _, ⟨last, hlast, hrest⟩, hts⟩ =>
      ⟨t, last, ht, hlast, by rw [hts, hrest]⟩)
  have hopening := hlex.operator (w := "\x7b")
    ('\n' :: List.replicate (if s.slots = [] then 0 else 4) ' ') (by split <;> decide) (by decide)
    (by decide)
  have hall := (hopening.name ['\n'] (by decide) hs.name).name (w := "class") [' '] (by decide)
    (by decide)
  obtain ⟨ps, hps, keyword, _, hkeyword, -, ⟨name, _, hname, -, ⟨opening, _, hopening, -, hslots,
    rfl⟩, rfl⟩, htokens⟩ := hall.cut true (Place.start base) []
  obtain ⟨body, _, hbody, ⟨closing, last, hclosing, hlast, rfl⟩, rfl⟩ := hslots fun hne => by
    rw [if_neg hne]
    exact Place.column_advance_newline _ _
  refine ⟨keyword, name, opening, body, closing, last,
    ⟨hkeyword, hname, hopening, hbody, hclosing⟩, hlast.leading, ?_⟩
  have hsplit : s.text = "class".toList ++ ([' '] ++ (s.name.toList ++ (['\n'] ++ ("\x7b".toList ++
      ('\n' :: List.replicate (if s.slots = [] then 0 else 4) ' ' ++ text))))) := by
    have htext' : gapped (s.slots.map Slot.row) ++ ['\x7d', '\n'] = _ := htext
    have hclass : "class ".toList = "class".toList ++ [' '] := by decide
    simp only [Sheet.text, htext', String.toList_append, hclass, List.append_assoc]
    rfl
  rw [tokenize, String.toList_ofList, hsplit, hps, ← htokens]

end ClassSugar
