import ClassSugar.Proofs.RenamedWords

/-!
# Two renamings, one after the other

A renaming replaces words by words. If what it puts there are words again, a second scan cuts its
result at the same places: at the same words, the same literals and the same holes. So two scans do
what one scan does with the composition of the two replacements (`apply_comp`).

* `Reworded` relates a text to the same text with other words in it.
* `HoleState.next` reads a hole one character at a time. A word leaves the state as it is, whichever
  word it is, and so a hole of the one text is a hole of the other (`hole_of_reworded`).
* `Twins` are written texts that the scanner cannot tell apart: it asks them for a dot and for marks
  at their end, and for nothing else.
-/

namespace ClassSugar.Renaming

open ClassSugar.Text ClassSugar.Token

/-! ### Texts with other words -/

/-- The second text is the first one with words in the place of some words. -/
inductive Reworded : List Char → List Char → Prop where
  | nil : Reworded [] []
  | cons (c : Char) {a a' : List Char} (h : Reworded a a') : Reworded (c :: a) (c :: a')
  | word {u u' a a' : List Char} (hu : IsWord u) (hu' : IsWord u') (h : Reworded a a') :
      Reworded (u ++ a) (u' ++ a')

namespace Reworded

variable {a a' b b' : List Char}

theorem symm (h : Reworded a a') : Reworded a' a := by
  induction h with
  | nil => exact .nil
  | cons c h ih => exact .cons c ih
  | word hu hu' h ih => exact .word hu' hu ih

theorem refl (a : List Char) : Reworded a a := by
  induction a with
  | nil => exact .nil
  | cons c a ih => exact .cons c ih

theorem append (ha : Reworded a a') (hb : Reworded b b') : Reworded (a ++ b) (a' ++ b') := by
  induction ha with
  | nil => exact hb
  | cons c h ih => exact .cons c ih
  | word hu hu' h ih =>
    rw [List.append_assoc, List.append_assoc]
    exact .word hu hu' ih

theorem head?_of_head? (h : Reworded a a') {c : Char} (hc : isWordPart c = false)
    (ha : a.head? = some c) : a'.head? = some c := by
  cases h with
  | nil => exact ha
  | cons d h => exact ha
  | @word u u' a a' hu hu' h =>
    obtain ⟨d, u, rfl⟩ := List.exists_cons_of_ne_nil hu.ne_nil
    cases ha
    rw [hu.parts c List.mem_cons_self] at hc
    cases hc

/-- The texts start with the same character, unless both start with a word. -/
theorem head?_iff (h : Reworded a a') {c : Char} (hc : isWordPart c = false) :
    a'.head? = some c ↔ a.head? = some c :=
  ⟨h.symm.head?_of_head? hc, h.head?_of_head? hc⟩

theorem eq_nil (h : Reworded [] a') : a' = [] := by
  generalize ha : [] = a at h
  cases h with
  | nil => rfl
  | cons c h => cases ha
  | word hu hu' h => exact absurd (List.append_eq_nil_iff.mp ha.symm).1 hu.ne_nil

theorem head_fails (h : Reworded a a') (ha : ∀ c, a.head? = some c → isWordPart c = false) :
    ∀ c, a'.head? = some c → isWordPart c = false := by
  intro c hc
  cases h with
  | nil => cases hc
  | cons d h => exact ha c hc
  | @word u u' a a' hu hu' h =>
    obtain ⟨d, u, rfl⟩ := List.exists_cons_of_ne_nil hu.ne_nil
    have hd := ha d rfl
    rw [hu.parts d List.mem_cons_self] at hd
    cases hd

end Reworded

/-! ### Holes, one character at a time -/

/-- The quotes between which a literal stands. -/
inductive Quote where
  | string
  | char

/-- The quote as it is written. -/
def Quote.mark : Quote → Char
  | .string => '"'
  | .char => '\''

theorem Quote.isWordPart_mark (quote : Quote) : isWordPart quote.mark = false := by
  cases quote <;> decide

/-- Where the scan of a hole stands: in its code, in a literal, or behind a backslash in one. -/
inductive HoleState where
  | code (depth : Nat)
  | inLiteral (depth : Nat) (quote : Quote)
  | escaped (depth : Nat) (quote : Quote)

namespace HoleState

/-- The state after a character of the code, if the hole does not end with it. -/
def nextInCode (depth : Nat) (c : Char) : Option HoleState :=
  if c = '"' then some (.inLiteral depth .string)
  else if c = '\'' then some (.inLiteral depth .char)
  else if c = '\x7b' then some (.code (depth + 1))
  else if c = '\x7d' then
    match depth with
    | 0 => none
    | depth + 1 => some (.code depth)
  else some (.code depth)

/-- The state after a character of a literal. -/
def nextInLiteral (depth : Nat) (quote : Quote) (c : Char) : HoleState :=
  if c = '\\' then .escaped depth quote
  else if c = quote.mark then .code depth
  else .inLiteral depth quote

/-- The state after a character, if the hole does not end with it. -/
def next : HoleState → Char → Option HoleState
  | .code depth, c => nextInCode depth c
  | .inLiteral depth quote, c => some (nextInLiteral depth quote c)
  | .escaped depth quote, _ => some (.inLiteral depth quote)

/-- What is still to come of a hole. -/
def remaining : HoleState → List Char → Hole
  | .code depth, cs => hole depth cs
  | .inLiteral depth quote, cs => quoted depth quote.mark cs
  | .escaped _ _, [] => ⟨[], false, []⟩
  | .escaped depth quote, e :: r => (quoted depth quote.mark r).cons e

variable {s s' : HoleState}

theorem remaining_nil (s : HoleState) : s.remaining [] = ⟨[], false, []⟩ := by
  cases s <;> simp [remaining, hole, quoted]

theorem remaining_cons (s : HoleState) (c : Char) (r : List Char) :
    s.remaining (c :: r) =
      match s.next c with
      | some s' => (s'.remaining r).cons c
      | none => ⟨[], true, r⟩ := by
  -- In code quotes open literals and braces are counted; in a literal only its end is looked for.
  cases s with
  | code depth =>
    rw [remaining, hole.eq_def, next, nextInCode.eq_def]
    by_cases hstring : c = '"'
    · subst hstring
      rfl
    by_cases hchar : c = '\''
    · subst hchar
      rfl
    simp only [hstring, hchar, or_self, if_false]
    by_cases hopen : c = '\x7b'
    · simp only [if_pos hopen]
      rfl
    by_cases hshut : c = '\x7d'
    · simp only [if_neg hopen, if_pos hshut]
      cases depth <;> rfl
    · simp only [if_neg hopen, if_neg hshut]
      rfl
  | inLiteral depth quote =>
    rw [remaining, quoted.eq_def, next, nextInLiteral]
    by_cases hslash : c = '\\'
    · simp only [if_pos hslash]
      cases r <;> rfl
    by_cases hquote : c = quote.mark
    · simp only [if_neg hslash, if_pos hquote]
      rfl
    · simp only [if_neg hslash, if_neg hquote]
      rfl
  | escaped depth quote => rfl

/-- Only the code of a hole ends, with a brace that none was opened for. -/
theorem of_next_eq_none {c : Char} (h : s.next c = none) : s = .code 0 ∧ c = '\x7d' := by
  cases s with
  | code depth =>
    unfold next nextInCode at h
    grind
  | inLiteral depth quote => cases h
  | escaped depth quote => cases h

/-- The state after a text that does not end the hole. -/
def after (s : HoleState) (cs : List Char) : Option HoleState :=
  cs.foldlM next s

theorem remaining_append {code : List Char} (h : s.after code = some s') (cs : List Char) :
    s.remaining (code ++ cs) =
      { s'.remaining cs with code := code ++ (s'.remaining cs).code } := by
  induction code generalizing s with
  | nil =>
    cases h
    rfl
  | cons c code ih =>
    obtain ⟨s₁, hnext, hafter⟩ := Option.bind_eq_some_iff.mp h
    rw [List.cons_append, remaining_cons, hnext]
    dsimp only
    rw [ih hafter]
    rfl

/-- A hole ends in its code with the brace that closes it, or the text ends first. -/
theorem exists_after (s : HoleState) (cs : List Char) :
    ∃ s', s.after (s.remaining cs).code = some s' ∧
      ((s.remaining cs).closed = true ∧ s' = .code 0 ∧
          cs = (s.remaining cs).code ++ '\x7d' :: (s.remaining cs).rest ∨
        (s.remaining cs).closed = false ∧ (s.remaining cs).rest = [] ∧
          cs = (s.remaining cs).code) := by
  induction cs generalizing s with
  | nil =>
    rw [remaining_nil]
    exact ⟨s, rfl, .inr ⟨rfl, rfl, rfl⟩⟩
  | cons c r ih =>
    rw [remaining_cons]
    cases hnext : s.next c with
    | none =>
      obtain ⟨rfl, rfl⟩ := of_next_eq_none hnext
      exact ⟨_, rfl, .inl ⟨rfl, rfl, rfl⟩⟩
    | some s₁ =>
      obtain ⟨s', hafter, hend⟩ := ih s₁
      refine ⟨s', Option.bind_eq_some_iff.mpr ⟨s₁, hnext, hafter⟩, ?_⟩
      exact hend.imp (fun ⟨hclosed, hs, hr⟩ => ⟨hclosed, hs, congrArg (c :: ·) hr⟩)
        fun ⟨hclosed, hrest, hr⟩ => ⟨hclosed, hrest, congrArg (c :: ·) hr⟩

/-- The state after a word: a backslash takes no more than the word's first character along. -/
def afterWord : HoleState → HoleState
  | .escaped depth quote => .inLiteral depth quote
  | s => s

theorem next_of_isWordPart (s : HoleState) {c : Char} (hc : isWordPart c = true) :
    s.next c = some s.afterWord := by
  have hne : ∀ d : Char, isWordPart d = false → c ≠ d := by
    rintro d hd rfl
    rw [hd] at hc
    cases hc
  cases s with
  | code depth =>
    simp [next, nextInCode, afterWord, hne '"' (by decide), hne '\'' (by decide),
      hne '\x7b' (by decide), hne '\x7d' (by decide)]
  | inLiteral depth quote =>
    simp [next, nextInLiteral, afterWord, hne '\\' (by decide), hne _ quote.isWordPart_mark]
  | escaped depth quote => rfl

theorem after_word {u : List Char} (hu : IsWord u) (s : HoleState) (cs : List Char) :
    s.after (u ++ cs) = s.afterWord.after cs := by
  obtain ⟨hne, hparts⟩ := hu
  have hstep : ∀ (s : HoleState) {c : Char} (r : List Char), isWordPart c = true →
      s.after (c :: r) = s.afterWord.after r := by
    intro s c r hc
    rw [after, List.foldlM_cons, next_of_isWordPart s hc]
    rfl
  have hidem : s.afterWord.afterWord = s.afterWord := by cases s <;> rfl
  induction u with
  | nil => exact absurd rfl hne
  | cons c u ih =>
    obtain ⟨hc, hparts⟩ := List.forall_mem_cons.mp hparts
    rw [List.cons_append, hstep s _ hc]
    cases u with
    | nil => rfl
    | cons d u =>
      rw [← ih (List.cons_ne_nil d u) hparts, List.cons_append,
        hstep s _ (hparts d List.mem_cons_self), hstep _ _ (hparts d List.mem_cons_self), hidem]

theorem after_reworded {cs cs' : List Char} (h : Reworded cs cs') (s : HoleState) :
    s.after cs' = s.after cs := by
  induction h generalizing s with
  | nil => rfl
  | @cons c a a' h ih =>
    unfold after at ih ⊢
    rw [List.foldlM_cons, List.foldlM_cons]
    cases s.next c with
    | none => rfl
    | some s' => exact ih s'
  | word hu hu' h ih => rw [after_word hu, after_word hu', ih]

end HoleState

/-- The brace behind a hole that was closed. -/
def Hole.close (h : Hole) : List Char :=
  if h.closed then ['\x7d'] else []

theorem Hole.reverse_close (h : Hole) : h.close.reverse = h.close := by
  unfold close
  split <;> rfl

/-- A text is its first hole, the brace behind it, and the rest. -/
theorem append_hole (cs : List Char) :
    (hole 0 cs).code ++ ((hole 0 cs).close ++ (hole 0 cs).rest) = cs := by
  obtain ⟨s', -, hend⟩ := HoleState.exists_after (.code 0) cs
  change (hole 0 cs).closed = true ∧ _ ∧ cs = (hole 0 cs).code ++ _ :: (hole 0 cs).rest ∨
    (hole 0 cs).closed = false ∧ (hole 0 cs).rest = [] ∧ cs = (hole 0 cs).code at hend
  unfold Hole.close
  rcases hend with ⟨hclosed, -, hcs⟩ | ⟨hclosed, hrest, hcs⟩
  · rw [hclosed, if_pos rfl]
    exact hcs.symm
  · rw [hclosed, hrest, if_neg Bool.false_ne_true, List.append_nil, List.append_nil]
    exact hcs.symm

/-- **A hole stays a hole** when words in it and behind it are replaced. -/
theorem hole_of_reworded {cs code' rest' : List Char} (hcode : Reworded (hole 0 cs).code code')
    (hrest : Reworded (hole 0 cs).rest rest') :
    hole 0 (code' ++ ((hole 0 cs).close ++ rest')) = ⟨code', (hole 0 cs).closed, rest'⟩ := by
  obtain ⟨s', hafter, hend⟩ := HoleState.exists_after (.code 0) cs
  change HoleState.after (.code 0) (hole 0 cs).code = some s' at hafter
  change (hole 0 cs).closed = true ∧ s' = .code 0 ∧ cs = (hole 0 cs).code ++ _ :: (hole 0 cs).rest ∨
    (hole 0 cs).closed = false ∧ (hole 0 cs).rest = [] ∧ cs = (hole 0 cs).code at hend
  have hafter' : HoleState.after (.code 0) code' = some s' :=
    (HoleState.after_reworded hcode (.code 0)).trans hafter
  have hsplit := HoleState.remaining_append hafter' ((hole 0 cs).close ++ rest')
  change hole 0 (code' ++ ((hole 0 cs).close ++ rest')) = _ at hsplit
  rw [hsplit]
  unfold Hole.close
  rcases hend with ⟨hclosed, rfl, -⟩ | ⟨hclosed, hnil, -⟩
  · rw [hclosed, if_pos rfl]
    have hshut : HoleState.remaining (.code 0) (['\x7d'] ++ rest') = ⟨[], true, rest'⟩ := rfl
    rw [hshut, List.append_nil]
  · rw [hnil] at hrest
    rw [hclosed, if_neg Bool.false_ne_true, hrest.eq_nil, List.append_nil,
      HoleState.remaining_nil, List.append_nil]

/-! ### Steps of the scanner in code -/

section Code

variable {f : List Char → List Char} {w : List Char}

/-- The marks of a literal behind a written text. -/
def Quote.marksAfter (w : List Char) : Quote → Marks
  | .string => .ofReversed w
  | .char => ⟨false, false⟩

theorem code_quote (quote : Quote) (r : List Char) :
    code f w (quote.mark :: r) =
      literal f quote.mark (quote.marksAfter w) (quote.mark :: w) r := by
  cases quote with
  | string => exact code_string r
  | char => exact code_char r

/-- What the scanner does next in code. -/
inductive CodeStep : List Char → Prop where
  /-- The text ends. -/
  | stop : CodeStep []
  /-- A literal starts. -/
  | quote (quote : Quote) (r : List Char) : CodeStep (quote.mark :: r)
  /-- A character is copied. -/
  | plain {c : Char} (hc : isPlain c = true) (r : List Char) : CodeStep (c :: r)
  /-- A word ends before the rest. -/
  | word {u b : List Char} (hu : IsWord u) (hb : ∀ d, b.head? = some d → isWordPart d = false) :
      CodeStep (u ++ b)

theorem codeStep (cs : List Char) : CodeStep cs := by
  cases cs with
  | nil => exact .stop
  | cons c r =>
    by_cases hstring : c = '"'
    · exact hstring ▸ .quote .string r
    by_cases hchar : c = '\''
    · exact hchar ▸ .quote .char r
    cases hc : isWordPart c with
    | false => exact .plain (by simp [isPlain, hc, hstring, hchar]) r
    | true =>
      rw [← List.takeWhile_append_dropWhile (p := isWordPart) (l := c :: r)]
      refine .word ⟨?_, fun d hd => List.mem_takeWhile_imp hd⟩
        (head_dropWhile_fails isWordPart (c :: r))
      rw [List.takeWhile_cons_of_pos hc]
      exact List.cons_ne_nil _ _

end Code

/-! ### Steps of the scanner in a literal -/

section Literal

variable {f : List Char → List Char} {marks : Marks} {w : List Char}

theorem literal_nil (quote : Quote) : literal f quote.mark marks w [] = w := by
  rw [literal.eq_def]

theorem literal_braces (quote : Quote) (h : marks.interpolated = true) (r : List Char) :
    literal f quote.mark marks w ('\x7b' :: '\x7b' :: r) =
      literal f quote.mark marks ('\x7b' :: '\x7b' :: w) r := by
  rw [literal.eq_def]
  simp [h]

theorem literal_hole (quote : Quote) (h : marks.interpolated = true) {r : List Char}
    (hr : r.head? ≠ some '\x7b') :
    literal f quote.mark marks w ('\x7b' :: r) =
      literal f quote.mark marks ((hole 0 r).close ++ (code f [] (hole 0 r).code ++ '\x7b' :: w))
        (hole 0 r).rest := by
  rw [literal.eq_def]
  simp only [h, true_and, if_true]
  split
  · exact absurd rfl hr
  · rfl

theorem literal_escape_nil (quote : Quote) (h : marks.verbatim = false) :
    literal f quote.mark marks w ['\\'] = '\\' :: w := by
  rw [literal.eq_def]
  simp [h]

theorem literal_escape (quote : Quote) (h : marks.verbatim = false) (e : Char) (r : List Char) :
    literal f quote.mark marks w ('\\' :: e :: r) =
      literal f quote.mark marks (e :: '\\' :: w) r := by
  rw [literal.eq_def]
  simp [h]

theorem literal_quotes (quote : Quote) (h : marks.verbatim = true) (r : List Char) :
    literal f quote.mark marks w (quote.mark :: quote.mark :: r) =
      literal f quote.mark marks (quote.mark :: quote.mark :: w) r := by
  rw [literal.eq_def]
  cases quote <;> simp [h, Quote.mark]

theorem literal_close (quote : Quote) {r : List Char}
    (h : marks.verbatim = true → r.head? ≠ some quote.mark) :
    literal f quote.mark marks w (quote.mark :: r) = code f (quote.mark :: w) r := by
  have hbrace : quote.mark ≠ '\x7b' := by cases quote <;> decide
  have hslash : quote.mark ≠ '\\' := by cases quote <;> decide
  rw [literal.eq_def]
  simp only [hbrace, hslash, and_false, false_and, if_false, if_true]
  cases r with
  | nil => rw [code.eq_def]
  | cons e r =>
    refine if_neg ?_
    rintro ⟨hverbatim, rfl⟩
    exact h hverbatim rfl

theorem literal_plain (quote : Quote) {c : Char} (hbrace : marks.interpolated = true → c ≠ '\x7b')
    (hslash : marks.verbatim = false → c ≠ '\\') (hquote : c ≠ quote.mark) (r : List Char) :
    literal f quote.mark marks w (c :: r) = literal f quote.mark marks (c :: w) r := by
  have hopen : ¬(marks.interpolated = true ∧ c = '\x7b') := fun h => hbrace h.1 h.2
  have hescape : ¬(c = '\\' ∧ ¬marks.verbatim = true) := fun h =>
    hslash (Bool.eq_false_iff.mpr h.2) h.1
  rw [literal.eq_def]
  simp only [hopen, hescape, hquote, if_false]

/-- What the scanner does next in a literal. -/
inductive LiteralStep (quote : Quote) (marks : Marks) : List Char → Prop where
  /-- The text ends in the literal. -/
  | stop {cs : List Char} (h : ∀ f w, literal f quote.mark marks w cs = cs.reverse ++ w) :
      LiteralStep quote marks cs
  /-- Some characters are copied, whatever follows them. -/
  | copy {x : List Char} (r : List Char) (hx : x ≠ [])
      (h : ∀ f w r, literal f quote.mark marks w (x ++ r) =
        literal f quote.mark marks (x.reverse ++ w) r) : LiteralStep quote marks (x ++ r)
  /-- A hole starts. -/
  | hole {r : List Char} (hinterpolated : marks.interpolated = true)
      (hr : r.head? ≠ some '\x7b') : LiteralStep quote marks ('\x7b' :: r)
  /-- The literal ends. -/
  | close {r : List Char} (hr : marks.verbatim = true → r.head? ≠ some quote.mark) :
      LiteralStep quote marks (quote.mark :: r)

theorem literalStep (quote : Quote) (marks : Marks) (cs : List Char) :
    LiteralStep quote marks cs := by
  cases cs with
  | nil => exact .stop fun _ _ => literal_nil quote
  | cons c r =>
    by_cases hbrace : marks.interpolated = true ∧ c = '\x7b'
    · obtain ⟨hinterpolated, rfl⟩ := hbrace
      by_cases hdoubled : r.head? = some '\x7b'
      · obtain ⟨r, rfl⟩ := List.head?_eq_some_iff.mp hdoubled
        exact .copy (x := ['\x7b', '\x7b']) r (by simp) fun _ _ => literal_braces quote hinterpolated
      · exact .hole hinterpolated hdoubled
    by_cases hslash : marks.verbatim = false ∧ c = '\\'
    · obtain ⟨hplain, rfl⟩ := hslash
      cases r with
      | nil => exact .stop fun _ _ => literal_escape_nil quote hplain
      | cons e r => exact .copy (x := ['\\', e]) r (by simp) fun _ _ => literal_escape quote hplain e
    by_cases hquote : c = quote.mark
    · subst hquote
      by_cases hdoubled : marks.verbatim = true ∧ r.head? = some quote.mark
      · obtain ⟨hverbatim, hhead⟩ := hdoubled
        obtain ⟨r, rfl⟩ := List.head?_eq_some_iff.mp hhead
        exact .copy (x := [quote.mark, quote.mark]) r (by simp) fun _ _ =>
          literal_quotes quote hverbatim
      · exact .close fun hverbatim hhead => hdoubled ⟨hverbatim, hhead⟩
    · exact .copy (x := [c]) r (by simp) fun _ _ => literal_plain quote
        (fun h hc => hbrace ⟨h, hc⟩) (fun h hc => hslash ⟨h, hc⟩) hquote

end Literal

/-! ### What the scanner sees of the text before it -/

/-- The marks at the end of a reversed text. -/
def lastMarks (w : List Char) : List Char :=
  (w.take 2).takeWhile fun c => c == '$' || c == '@'

/-- The scanner goes on in the same way behind both texts. -/
structure Twins (w w' : List Char) : Prop where
  dot : endsWithDot w = endsWithDot w'
  marks : lastMarks w = lastMarks w'

namespace Twins

variable {w w' : List Char}

theorem marksAfter_eq (h : Twins w w') (quote : Quote) :
    quote.marksAfter w = quote.marksAfter w' := by
  cases quote with
  | string =>
    have hmarks := h.marks
    unfold lastMarks at hmarks
    unfold Quote.marksAfter Marks.ofReversed
    rw [hmarks]
  | char => rfl

theorem cons (c : Char) (h : Twins w w') : Twins (c :: w) (c :: w') := by
  constructor
  · cases hc : isBlank c with
    | true => rw [endsWithDot_cons_of_isBlank hc, endsWithDot_cons_of_isBlank hc, h.dot]
    | false => rw [endsWithDot_cons hc, endsWithDot_cons hc]
  · -- Of the marks before the character, only the last one still counts.
    have hcons : ∀ v : List Char, lastMarks (c :: v) =
        if c == '$' || c == '@' then c :: (lastMarks v).take 1 else [] := by
      intro v
      unfold lastMarks
      rw [List.take_succ_cons, List.takeWhile_cons]
      rcases v with _ | ⟨d, _ | ⟨e, v⟩⟩ <;> simp [List.takeWhile_cons] <;> grind
    rw [hcons, hcons, h.marks]

theorem append_left (s : List Char) (h : Twins w w') : Twins (s ++ w) (s ++ w') := by
  induction s with
  | nil => exact h
  | cons c s ih => exact ih.cons c

/-- The character hides what was written before it. -/
structure Hides (c : Char) : Prop where
  blank : isBlank c = false
  dot : c ≠ '.'
  mark : (c == '$' || c == '@') = false

theorem of_hides {c c' : Char} (hc : Hides c) (hc' : Hides c') : Twins (c :: w) (c' :: w') := by
  have hseen : ∀ {d : Char} (v : List Char), Hides d →
      endsWithDot (d :: v) = false ∧ lastMarks (d :: v) = [] := by
    intro d v hd
    refine ⟨?_, ?_⟩
    · rw [endsWithDot_cons hd.blank, beq_eq_false_iff_ne]
      exact hd.dot
    · unfold lastMarks
      rw [List.take_succ_cons, List.takeWhile_cons_of_neg (by rw [hd.mark]; nofun)]
  exact ⟨(hseen w hc).1.trans (hseen w' hc').1.symm, (hseen w hc).2.trans (hseen w' hc').2.symm⟩

theorem hides_mark (quote : Quote) : Hides quote.mark := by
  cases quote <;> exact ⟨by decide, by decide, by decide⟩

theorem hides_of_isWordChar {c : Char} (hc : isWordChar c = true) : Hides c := by
  have hpart : isWordPart c = true := by simp only [isWordPart, hc, Bool.true_or]
  refine ⟨isBlank_of_isWordPart hpart, ?_, ?_⟩
  · rintro rfl
    exact absurd hc (by decide)
  · rw [Bool.eq_false_iff]
    intro hmark
    rw [Bool.or_eq_true, beq_iff_eq, beq_iff_eq] at hmark
    rcases hmark with rfl | rfl <;> exact absurd hc (by decide)

end Twins

/-! ### Two scans -/

/-- The last character is one of a name. -/
def EndsName (u : List Char) : Prop :=
  ∃ c, u.getLast? = some c ∧ isWordChar c = true

/-- Words become words, and only words that end like names are replaced, by such words. -/
structure KeepsShape (f : List Char → List Char) : Prop where
  isWord : ∀ u, IsWord u → IsWord (f u)
  ends : ∀ u, IsWord u → f u = u ∨ EndsName u ∧ EndsName (f u)

namespace KeepsShape

variable {f g : List Char → List Char}

theorem comp (hg : KeepsShape g) (hf : KeepsShape f) : KeepsShape (g ∘ f) where
  isWord u hu := hg.isWord _ (hf.isWord u hu)
  ends u hu := by
    rcases hf.ends u hu with hfix | ⟨hends, hends'⟩
    · rw [Function.comp, hfix]
      exact hg.ends u hu
    · rcases hg.ends _ (hf.isWord u hu) with hfix | ⟨-, hends''⟩
      · exact .inr ⟨hends, by rwa [Function.comp, hfix]⟩
      · exact .inr ⟨hends, hends''⟩

theorem of_fixed (h : ∀ u, f u = u) : KeepsShape f where
  isWord u hu := (h u).symm ▸ hu
  ends u _ := .inl (h u)

theorem single {old new : String} (hold : IsName old.toList) (hnew : IsName new.toList) :
    KeepsShape (single old new) where
  isWord u hu := by
    unfold Renaming.single
    split
    · exact hnew.isWord
    · exact hu
  ends u hu := by
    unfold Renaming.single
    split
    · next heq => exact .inr ⟨heq ▸ hold.exists_isWordChar, hnew.exists_isWordChar⟩
    · exact .inl rfl

/-- Behind a word and behind what it becomes the scanner goes on in the same way. -/
theorem twins (hf : KeepsShape f) {u : List Char} (hu : IsWord u) {w w' : List Char}
    (h : Twins w w') : Twins (u.reverse ++ w) ((f u).reverse ++ w') := by
  rcases hf.ends u hu with hfix | ⟨⟨c, hlast, hc⟩, ⟨c', hlast', hc'⟩⟩
  · rw [hfix]
    exact h.append_left _
  · obtain ⟨front, rfl⟩ := List.getLast?_eq_some_iff.mp hlast
    obtain ⟨front', hfront'⟩ := List.getLast?_eq_some_iff.mp hlast'
    rw [hfront', List.reverse_append, List.reverse_append]
    exact Twins.of_hides (Twins.hides_of_isWordChar hc) (Twins.hides_of_isWordChar hc')

end KeepsShape

section Composition

variable {f g : List Char → List Char}

theorem length_lt_append {x : List Char} (hx : x ≠ []) (r : List Char) :
    r.length < (x ++ r).length := by
  have := List.length_pos_iff.mpr hx
  rw [List.length_append]
  omega

/-- A scan with `f` gives a text with other words, which a scan with `g` makes into what one scan
with both makes of the text. -/
structure Composes (f g : List Char → List Char) (cs : List Char) : Prop where
  code : ∀ w w', Twins w w' → ∃ s, code f w cs = s.reverse ++ w ∧ Reworded cs s ∧
    code g w' s = code (g ∘ f) w' cs
  literal : ∀ (quote : Quote) (marks : Marks) (w w' : List Char),
    ∃ s, literal f quote.mark marks w cs = s.reverse ++ w ∧ Reworded cs s ∧
      literal g quote.mark marks w' s = literal (g ∘ f) quote.mark marks w' cs

theorem code_composes (hf : KeepsShape f) (hg : KeepsShape g) {cs : List Char}
    (ih : ∀ ds : List Char, ds.length < cs.length → Composes f g ds) {w w' : List Char}
    (htwins : Twins w w') :
    ∃ s, code f w cs = s.reverse ++ w ∧ Reworded cs s ∧ code g w' s = code (g ∘ f) w' cs := by
  cases codeStep cs with
  | stop => exact ⟨[], by rw [code.eq_def]; rfl, .nil, by rw [code.eq_def, code.eq_def]⟩
  | quote quote r =>
    obtain ⟨s, hs, hwords, hscan⟩ := (ih r (by simp)).literal quote (quote.marksAfter w)
      (quote.mark :: w) (quote.mark :: w')
    refine ⟨quote.mark :: s, ?_, .cons _ hwords, ?_⟩
    · rw [code_quote, hs, List.reverse_cons, List.append_assoc]
      rfl
    · rw [code_quote, code_quote, ← htwins.marksAfter_eq, hscan]
  | @plain c hc r =>
    obtain ⟨s, hs, hwords, hscan⟩ := (ih r (by simp)).code (c :: w) (c :: w') (htwins.cons c)
    refine ⟨c :: s, ?_, .cons c hwords, ?_⟩
    · rw [code_plain hc, hs, List.reverse_cons, List.append_assoc]
      rfl
    · rw [code_plain hc, code_plain hc, hscan]
  | @word u b hu hb =>
    -- The second scan meets the image of the word where the first one met the word.
    have hword : ∀ image image' : List Char, IsWord image →
        Twins (image.reverse ++ w) (image'.reverse ++ w') →
        (∀ b : List Char, (∀ d, b.head? = some d → isWordPart d = false) →
          code g w' (image ++ b) = code g (image'.reverse ++ w') b) →
        ∃ s, code f (image.reverse ++ w) b = s.reverse ++ w ∧ Reworded (u ++ b) s ∧
          code g w' s = code (g ∘ f) (image'.reverse ++ w') b := by
      intro image image' himage himages hscan'
      obtain ⟨s, hs, hwords, hscan⟩ := (ih b (length_lt_append hu.ne_nil b)).code _ _ himages
      refine ⟨image ++ s, ?_, .word hu himage hwords, ?_⟩
      · rw [hs, List.reverse_append, List.append_assoc]
      · rw [hscan' s (hwords.head_fails hb), hscan]
    rw [code_append_word hu hb, code_append_word hu hb, ← htwins.dot]
    cases hdot : endsWithDot w with
    | true =>
      refine hword u u hu (htwins.append_left _) fun b hb => ?_
      rw [code_append_word hu hb, ← htwins.dot, hdot]
      rfl
    | false =>
      have hfu := hf.isWord u hu
      refine hword (f u) (g (f u)) hfu (hg.twins hfu htwins) fun b hb => ?_
      rw [code_append_word hfu hb, ← htwins.dot, hdot]
      rfl

theorem literal_composes {cs : List Char}
    (ih : ∀ ds : List Char, ds.length < cs.length → Composes f g ds) (quote : Quote) (marks : Marks)
    (w w' : List Char) :
    ∃ s, literal f quote.mark marks w cs = s.reverse ++ w ∧ Reworded cs s ∧
      literal g quote.mark marks w' s = literal (g ∘ f) quote.mark marks w' cs := by
  cases literalStep quote marks cs with
  | stop h => exact ⟨cs, h f w, .refl cs, by rw [h, h]⟩
  | @copy x r hx h =>
    obtain ⟨s, hs, hwords, hscan⟩ := (ih r (length_lt_append hx r)).literal quote marks
      (x.reverse ++ w) (x.reverse ++ w')
    refine ⟨x ++ s, ?_, (Reworded.refl x).append hwords, ?_⟩
    · rw [h, hs, List.reverse_append, List.append_assoc]
    · rw [h, h, hscan]
  | @hole r hinterpolated hr =>
    -- The hole is scanned by itself, and what follows it as a literal again.
    have hlength := length_hole 0 r
    obtain ⟨s₁, hs₁, hwords₁, hscan₁⟩ := (ih (hole 0 r).code (by grind)).code [] [] ⟨rfl, rfl⟩
    obtain ⟨s₂, hs₂, hwords₂, hscan₂⟩ := (ih (hole 0 r).rest (by grind)).literal quote marks
      ((hole 0 r).close ++ (code f [] (hole 0 r).code ++ '\x7b' :: w))
      ((hole 0 r).close ++ (code g [] s₁ ++ '\x7b' :: w'))
    have hwords : Reworded r (s₁ ++ ((hole 0 r).close ++ s₂)) := by
      have happend := hwords₁.append ((Reworded.refl (hole 0 r).close).append hwords₂)
      rwa [append_hole] at happend
    have hhead : (s₁ ++ ((hole 0 r).close ++ s₂)).head? ≠ some '\x7b' := by
      rwa [ne_eq, hwords.head?_iff (by decide)]
    refine ⟨'\x7b' :: (s₁ ++ ((hole 0 r).close ++ s₂)), ?_, .cons _ hwords, ?_⟩
    · rw [literal_hole quote hinterpolated hr, hs₂, hs₁]
      simp [Hole.reverse_close]
    · rw [literal_hole quote hinterpolated hhead, literal_hole quote hinterpolated hr,
        hole_of_reworded hwords₁ hwords₂, ← hscan₁]
      exact hscan₂
  | @close r hr =>
    have htwins : Twins (quote.mark :: w) (quote.mark :: w') :=
      .of_hides (Twins.hides_mark quote) (Twins.hides_mark quote)
    obtain ⟨s, hs, hwords, hscan⟩ := (ih r (by simp)).code _ _ htwins
    have hr' : marks.verbatim = true → s.head? ≠ some quote.mark := fun h hs =>
      hr h ((hwords.head?_iff quote.isWordPart_mark).mp hs)
    refine ⟨quote.mark :: s, ?_, .cons _ hwords, ?_⟩
    · rw [literal_close quote hr, hs, List.reverse_cons, List.append_assoc]
      rfl
    · rw [literal_close quote hr', literal_close quote hr, hscan]

theorem composes (hf : KeepsShape f) (hg : KeepsShape g) (cs : List Char) : Composes f g cs := by
  induction hn : cs.length using Nat.strong_induction_on generalizing cs with
  | _ n ih =>
    have hshorter : ∀ ds : List Char, ds.length < cs.length → Composes f g ds :=
      fun ds hds => ih ds.length (hn ▸ hds) ds rfl
    exact ⟨fun w w' => code_composes hf hg hshorter, literal_composes hshorter⟩

/-- **Two renamings are one.** -/
theorem apply_comp (hf : KeepsShape f) (hg : KeepsShape g) (text : String) :
    apply g (apply f text) = apply (g ∘ f) text := by
  obtain ⟨s, hs, -, hscan⟩ := (composes hf hg text.toList).code [] [] ⟨rfl, rfl⟩
  unfold apply
  rw [hs, List.append_nil, List.reverse_reverse, String.toList_ofList, hscan]

end Composition

end ClassSugar.Renaming
