import ClassSugar.Token.Piece

/-!
# Scanning with a place

A scanner reads a source character by character and carries where it stands: the bytes it has passed,
its line, its visual column, and whether a directive may start there (`Scanner.bump`). It can step
back by one character, and then takes one byte and one column off by hand (`Scanner.back`).

Literals are scanned one turn at a time. The scanning of a string literal is left for the code in one
of its holes, and a hole is left for each literal in it; every call that is active is on a stack
(`Scan`), with the place at which it was entered. A turn of the loop of the innermost call
(`Call.turn`) says how many characters to read and what follows: the loop goes on, the call returns,
something is left open, or another call is entered. To see the quote of a character literal a hole
reads it, and steps back before it enters the literal.

A turn reads at least one character, but for one: a hole that meets a literal enters it without
having read anything. No two such turns follow each other, so twice the text that is left, and one
more in a hole, gets smaller with every step (`Scan.work_step_lt`) and the scanning ends.
-/

namespace ClassSugar.Token

open ClassSugar.Text

/-! ### Scanners -/

/-- A scanner in a source. -/
structure Scanner where
  /-- What was read, the last character first. -/
  read : List Char
  /-- What is left. -/
  rest : List Char
  /-- Where it stands; offsets count from the start of the source. -/
  place : Place
  /-- Nothing but blanks and comments was read on this line. -/
  lineStart : Bool

namespace Scanner

/-- The scanner before the first character of a source. -/
def start (source : List Char) : Scanner :=
  ⟨[], source, Place.start 0, true⟩

/-- Reads a character, if one is left. -/
def bump (s : Scanner) : Scanner :=
  match s.rest with
  | [] => s
  | c :: r => ⟨c :: s.read, r, s.place.step c, s.lineStart || c == '\n'⟩

/-- Reads so many characters, if as many are left. -/
def bumps (s : Scanner) : Nat → Scanner
  | 0 => s
  | n + 1 => s.bump.bumps n

/-- Steps back by a character, which is taken to have one byte and one column. -/
def back (s : Scanner) : Scanner :=
  match s.read with
  | [] => s
  | c :: r =>
    { s with
      read := r
      rest := c :: s.rest
      place := { s.place with offset := s.place.offset - 1, column := s.place.column - 1 } }

@[simp] theorem rest_bumps (s : Scanner) (n : Nat) : (s.bumps n).rest = s.rest.drop n := by
  induction n generalizing s with
  | zero => rfl
  | succ n ih =>
    rw [bumps, ih, bump]
    cases hrest : s.rest with
    | nil => simp [hrest]
    | cons c r => rfl

/-- To read a quote and to step back is to stay. -/
theorem back_bump {s : Scanner} {r : List Char} (h : s.rest = '\'' :: r) : s.bump.back = s := by
  obtain ⟨read, rest, place, lineStart⟩ := s
  obtain rfl : rest = '\'' :: r := h
  simp [bump, back, Place.step]
  rfl

end Scanner

/-! ### Calls -/

/-- What the innermost call is doing. -/
inductive Call where
  /-- A string literal is entered, and its opening is still to be read. -/
  | string
  /-- A raw literal, up to a fence of so many quotes. -/
  | raw (quotes : Nat)
  /-- A literal in quotes. -/
  | quoted (verbatim interpolated : Bool)
  /-- A hole, with `depth` braces open inside it. -/
  | hole (depth : Nat)
  /-- A character literal is entered, and its quote is still to be read. -/
  | quote
  /-- A character literal. -/
  | char
  deriving DecidableEq, Repr

/-- Whether a call is one for a hole. -/
def Call.isHole : Call → Bool
  | .hole _ => true
  | _ => false

/-- What one turn of the loop of a call does, and how many characters it reads first. -/
inductive Turn where
  /-- The loop goes on. -/
  | on (call : Call) (n : Nat)
  /-- The call returns. -/
  | back (n : Nat)
  /-- Something is left open. -/
  | fail (what : Unclosed) (n : Nat)
  /-- Another call is entered. -/
  | enter (callee : Call) (n : Nat)
  /-- Another call is entered at a character that was read and is to be read again. -/
  | reread (callee : Call)
  deriving DecidableEq, Repr

/-- A turn in a literal in quotes. -/
def quotedTurn (verbatim interpolated : Bool) : List Char → Turn
  | [] => .fail .stringLiteral 0
  | c :: r =>
    if c = '\n' ∧ ¬verbatim then
      .fail .stringLiteral 0
    else if c = '\\' ∧ ¬verbatim then
      if r = [] then .fail .stringLiteral 1 else .on (.quoted verbatim interpolated) 2
    else if c = '"' then
      if r.head? = some '"' ∧ verbatim then .on (.quoted verbatim interpolated) 2 else .back 1
    else if c = '{' ∧ interpolated then
      if r.head? = some '{' then .on (.quoted verbatim interpolated) 2 else .enter (.hole 0) 1
    else
      .on (.quoted verbatim interpolated) 1

/-- A turn in a hole. A string literal is entered where it starts. A character literal is only seen
once its quote was read, and so has to be gone back to. -/
def holeTurn (depth : Nat) (cs : List Char) : Turn :=
  match Opening.of? cs with
  | some _ => .enter .string 0
  | none =>
    match cs with
    | [] => .fail .stringInterpolation 0
    | '{' :: _ => .on (.hole (depth + 1)) 1
    | '}' :: _ =>
      match depth with
      | 0 => .back 1
      | depth + 1 => .on (.hole depth) 1
    | '\'' :: _ => .reread .quote
    | _ :: _ => .on (.hole depth) 1

/-- A turn in a character literal whose quote was read. -/
def charTurn : List Char → Turn
  | [] => .fail .characterLiteral 0
  | ['\\'] => .fail .characterLiteral 1
  | '\\' :: _ :: _ => .on .char 2
  | '\'' :: _ => .back 1
  | '\n' :: _ => .fail .characterLiteral 1
  | _ :: _ => .on .char 1

/-- A turn in a raw literal. -/
def rawTurn (quotes : Nat) : List Char → Turn
  | [] => .fail .stringLiteral 0
  | c :: r =>
    if (List.replicate quotes '"').isPrefixOf (c :: r) then
      .back (Cut.drop c r quotes).read.length
    else
      .on (.raw quotes) 1

/-- The turn that reads the opening of a string literal. It is entered only where there is one. -/
def openingTurn (cs : List Char) : Turn :=
  match Opening.of? cs with
  | none => .fail .stringLiteral 0
  | some o =>
    .on (if 3 ≤ o.quotes then .raw o.quotes else .quoted o.verbatim o.interpolated)
      o.body.read.length

/-- The turn that reads the quote of a character literal. It is entered only where there is one. -/
def quoteTurn : List Char → Turn
  | [] => .fail .characterLiteral 0
  | _ :: _ => .on .char 1

/-- One turn of the loop of a call. -/
def Call.turn : Call → List Char → Turn
  | .string => openingTurn
  | .raw quotes => rawTurn quotes
  | .quoted verbatim interpolated => quotedTurn verbatim interpolated
  | .hole depth => holeTurn depth
  | .quote => quoteTurn
  | .char => charTurn

/-! ### The machine -/

/-- A call that is active. -/
structure Activation where
  /-- The scanner when the call was entered. -/
  entry : Scanner
  /-- Where the literal starts that is left open if the call fails: for a hole that is the literal
  that it belongs to. -/
  start : Scanner
  call : Call

/-- Something left open, from where it was opened to where the scanner gave up. -/
structure Unfinished where
  what : Unclosed
  start : Scanner
  stop : Scanner

/-- A state of the scanning of a literal. -/
inductive Scan where
  /-- The innermost call, the scanner, and the calls that wait for the innermost one to return. -/
  | running (inner : Activation) (s : Scanner) (stack : List Activation)
  /-- All calls have returned. -/
  | done (s : Scanner)
  /-- Something is left open. -/
  | failed (left : Unfinished)

namespace Scan

/-- A call returns to the one that waits for it. -/
def resume (s : Scanner) : List Activation → Scan
  | [] => .done s
  | outer :: stack => .running outer s stack

/-- A call is entered where the scanner stands. -/
def enter (callee : Call) (inner : Activation) (s : Scanner) (stack : List Activation) : Scan :=
  .running ⟨s, if callee.isHole then inner.start else s, callee⟩ s (inner :: stack)

/-- What follows a turn of the innermost call. -/
def apply (inner : Activation) (s : Scanner) (stack : List Activation) : Turn → Scan
  | .on call n => .running { inner with call := call } (s.bumps n) stack
  | .back n => .resume (s.bumps n) stack
  | .fail what n => .failed ⟨what, inner.start, s.bumps n⟩
  | .enter callee n => .enter callee inner (s.bumps n) stack
  | .reread callee => .enter callee inner s.bump.back stack

/-- One step. -/
def step : Scan → Scan
  | .running inner s stack => apply inner s stack (inner.call.turn s.rest)
  | .done s => .done s
  | .failed left => .failed left

/-- The scanner before a literal. -/
def start (call : Call) (s : Scanner) : Scan :=
  .running ⟨s, s, call⟩ s []

/-- Whether the scanning is over. -/
def halted : Scan → Bool
  | .running _ _ _ => false
  | _ => true

/-- A bound for the steps to come. -/
def work : Scan → Nat
  | .running inner s _ => 2 * s.rest.length + (if inner.call.isHole then 2 else 1)
  | _ => 0

end Scan

/-! ### Every turn goes forward -/

/-- How far a turn of a call goes in a text: it reads something, unless it leaves a hole for a
literal, and it reads no more than there is. -/
def Turn.Forward (call : Call) (cs : List Char) : Turn → Prop
  | .on call' n => 0 < n ∧ n ≤ cs.length ∧ call'.isHole = call.isHole
  | .back n => 0 < n ∧ n ≤ cs.length
  | .fail _ n => n ≤ cs.length
  | .enter callee n =>
    (callee.isHole = true ∧ call.isHole = false ∧ 0 < n ∧ n ≤ cs.length) ∨
      (callee.isHole = false ∧ call.isHole = true ∧ n = 0)
  | .reread callee => callee.isHole = false ∧ call.isHole = true ∧ ∃ r, cs = '\'' :: r

theorem forward_quotedTurn (verbatim interpolated : Bool) (cs : List Char) :
    (quotedTurn verbatim interpolated cs).Forward (.quoted verbatim interpolated) cs := by
  fun_cases quotedTurn verbatim interpolated cs <;>
    grind [Turn.Forward, Call.isHole, List.length_pos_iff]

theorem forward_holeTurn (depth : Nat) (cs : List Char) :
    (holeTurn depth cs).Forward (.hole depth) cs := by
  fun_cases holeTurn depth cs <;> simp [Turn.Forward, Call.isHole]

theorem forward_charTurn (cs : List Char) : (charTurn cs).Forward .char cs := by
  fun_cases charTurn cs <;> simp [Turn.Forward, Call.isHole]

/-- A part that was cut off is not empty and not longer than the text. -/
theorem pos_and_le_of_cut {cs : List Char} (t : Cut cs) :
    0 < t.read.length ∧ t.read.length ≤ cs.length := by
  refine ⟨List.length_pos_iff.mpr t.read_ne_nil, ?_⟩
  rw [← congrArg List.length t.read_append_rest, List.length_append]
  exact Nat.le_add_right _ _

theorem forward_rawTurn (quotes : Nat) (cs : List Char) :
    (rawTurn quotes cs).Forward (.raw quotes) cs := by
  fun_cases rawTurn quotes cs with
  | case1 => exact Nat.zero_le _
  | case2 => exact pos_and_le_of_cut _
  | case3 => simp [Turn.Forward, Call.isHole]

theorem forward_openingTurn (cs : List Char) : (openingTurn cs).Forward .string cs := by
  unfold openingTurn
  split
  · exact Nat.zero_le _
  · rename_i o _
    obtain ⟨hpos, hle⟩ := pos_and_le_of_cut o.body
    refine ⟨hpos, hle, ?_⟩
    split <;> rfl

theorem forward_quoteTurn (cs : List Char) : (quoteTurn cs).Forward .quote cs := by
  cases cs <;> simp [quoteTurn, Turn.Forward, Call.isHole]

/-- **Every turn goes forward.** -/
theorem Call.forward_turn (call : Call) (cs : List Char) : (call.turn cs).Forward call cs := by
  cases call with
  | string => exact forward_openingTurn cs
  | raw quotes => exact forward_rawTurn quotes cs
  | quoted verbatim interpolated => exact forward_quotedTurn verbatim interpolated cs
  | hole depth => exact forward_holeTurn depth cs
  | quote => exact forward_quoteTurn cs
  | char => exact forward_charTurn cs

/-! ### The scanning ends -/

namespace Scan

theorem lt_work_running (inner : Activation) (s : Scanner) (stack : List Activation) :
    2 * s.rest.length < (running inner s stack).work := by
  simp only [work]
  split <;> omega

theorem work_resume_le (s : Scanner) (stack : List Activation) :
    (resume s stack).work ≤ 2 * s.rest.length + 2 := by
  cases stack with
  | nil => exact Nat.zero_le _
  | cons outer stack =>
    simp only [resume, work]
    split <;> omega

/-- **Every step leaves less to do.** -/
theorem work_apply_lt {turn : Turn} {inner : Activation} {s : Scanner}
    (h : turn.Forward inner.call s.rest) (stack : List Activation) :
    (apply inner s stack turn).work < (running inner s stack).work := by
  have hwork := lt_work_running inner s stack
  cases turn with
  | on call n =>
    obtain ⟨hpos, hle, hhole⟩ := h
    simp only [apply, work, hhole, Scanner.rest_bumps, List.length_drop]
    omega
  | back n =>
    obtain ⟨hpos, hle⟩ := h
    have hresume := work_resume_le (s.bumps n) stack
    rw [Scanner.rest_bumps, List.length_drop] at hresume
    show (resume (s.bumps n) stack).work < _
    omega
  | fail what n =>
    show 0 < _
    omega
  | enter callee n =>
    rcases h with ⟨hcallee, hcall, hpos, hle⟩ | ⟨hcallee, hcall, rfl⟩
    · -- A literal is left for a hole: at least the brace was read.
      simp only [apply, enter, work, hcallee, hcall, Scanner.rest_bumps, List.length_drop]
      simp only [↓reduceIte, Bool.false_eq_true]
      omega
    · -- A hole is left for a literal: nothing was read, but the literal is no hole.
      simp only [apply, enter, work, hcallee, hcall, Scanner.bumps, ↓reduceIte, Bool.false_eq_true]
      exact Nat.lt_succ_self _
  | reread callee =>
    -- The quote that was read is there again.
    obtain ⟨hcallee, hcall, r, hr⟩ := h
    simp only [apply, enter, work, hcallee, hcall, Scanner.back_bump hr, ↓reduceIte,
      Bool.false_eq_true]
    exact Nat.lt_succ_self _

theorem work_step_lt {x : Scan} (h : x.halted = false) : x.step.work < x.work := by
  cases x with
  | running inner s stack => exact work_apply_lt (inner.call.forward_turn s.rest) stack
  | done s => cases h
  | failed left => cases h

/-- The steps up to the end: the scanner behind the literal, or what is left open. -/
def run : Scan → Except Unfinished Scanner
  | .done s => .ok s
  | .failed left => .error left
  | .running inner s stack => run (step (.running inner s stack))
termination_by x => x.work
decreasing_by exact work_step_lt rfl

/-- The number of characters that are left. -/
def left : Scan → Nat
  | .running _ s _ => s.rest.length
  | .done s => s.rest.length
  | .failed unfinished => unfinished.stop.rest.length

theorem left_resume (s : Scanner) (stack : List Activation) :
    (resume s stack).left = s.rest.length := by
  cases stack <;> rfl

/-- A step leaves no more than there was. -/
theorem left_step_le (x : Scan) : x.step.left ≤ x.left := by
  cases x with
  | done s => exact Nat.le_refl _
  | failed unfinished => exact Nat.le_refl _
  | running inner s stack =>
    have hforward := inner.call.forward_turn s.rest
    show (apply inner s stack (inner.call.turn s.rest)).left ≤ s.rest.length
    cases hturn : inner.call.turn s.rest with
    | reread callee =>
      rw [hturn] at hforward
      obtain ⟨-, -, r, hr⟩ := hforward
      simp [apply, enter, left, Scanner.back_bump hr]
    | back n => simp [apply, left_resume]
    | on | fail | enter => simp [apply, enter, left]

theorem left_run_le {x : Scan} {s' : Scanner} (h : x.run = .ok s') : s'.rest.length ≤ x.left := by
  fun_induction run x with
  | case1 s =>
    cases h
    exact Nat.le_refl _
  | case2 => cases h
  | case3 inner s stack ih => exact Nat.le_trans (ih h) (left_step_le _)

/-- **A literal is not empty.** -/
theorem length_run_start_lt {call : Call} {s s' : Scanner} (hcall : call.isHole = false)
    (h : (start call s).run = .ok s') : s'.rest.length < s.rest.length := by
  have hforward := call.forward_turn s.rest
  rw [start, run] at h
  refine Nat.lt_of_le_of_lt (left_run_le h) ?_
  show (apply _ s [] (call.turn s.rest)).left < _
  -- The first turn reads a character, whatever it is; only in a hole may a turn read nothing.
  cases hturn : call.turn s.rest with
  | on call' n =>
    rw [hturn] at hforward
    obtain ⟨hpos, hlen, -⟩ := hforward
    simp only [apply, left, Scanner.rest_bumps, List.length_drop]
    omega
  | back n =>
    rw [hturn] at hforward
    obtain ⟨hpos, hlen⟩ := hforward
    simp only [apply, left_resume, Scanner.rest_bumps, List.length_drop]
    omega
  | fail what n =>
    rw [step] at h
    simp only [hturn, apply, run] at h
    cases h
  | enter callee n =>
    rw [hturn] at hforward
    rcases hforward with ⟨-, -, hpos, hlen⟩ | ⟨-, hhole, -⟩
    · simp only [apply, enter, left, Scanner.rest_bumps, List.length_drop]
      omega
    · rw [hcall] at hhole
      cases hhole
  | reread callee =>
    rw [hturn] at hforward
    rw [hforward.2.1] at hcall
    cases hcall

end Scan

end ClassSugar.Token
