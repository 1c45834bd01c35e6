import Mathlib.Logic.Function.Iterate
import ClassSugar.Token.Scanner
import ClassSugar.Proofs.LiteralLocality
import ClassSugar.Proofs.LosslessTokens

/-!
# Scanning literals one turn at a time

The machine that scans a literal (`Scan`) shows every call while it is active, and where the scanner
stood when the call was entered. What one step of it can do is said once, by `Call.forward_turn`; the
results here hold of all states that it goes through.

* **A scanner only reads.** All scanners in a state come from the one before the literal by reading
  (`Scanner.Reads`): their place is the one that the characters in between lead to. That is so even
  though a hole steps back, because it steps back over a quote, which has one byte and one column.
* **Calls go forward.** A call that is entered while another one is active is entered at a later
  place; at the same place only if it is a literal that starts a hole (`Scan.nested_iterate`). So a
  literal inside of a literal, and a hole inside of a hole, starts strictly later.
* **The machine is right.** It ends behind the literal, or with what is left open, as the scanners
  say that know of no places (`Scan.answer_eq`).
-/

namespace ClassSugar.Token

open ClassSugar.Text

/-! ### What a scanner has read -/

namespace Scanner

/-- A scanner comes to stand behind a text that it had before it. -/
structure Passes (s : Scanner) (cs : List Char) (s' : Scanner) : Prop where
  rest : s.rest = cs ++ s'.rest
  read : s'.read = cs.reverse ++ s.read
  place : s'.place = s.place.advance cs

/-- It does so by reading alone: a directive may start there if one could before, or if there is a
line break in the text. -/
structure Reads (s : Scanner) (cs : List Char) (s' : Scanner) : Prop extends s.Passes cs s' where
  lineStart : s'.lineStart = (s.lineStart || cs.contains '\n')

section Passes

variable {s s' s'' : Scanner} {cs ds : List Char}

theorem Passes.trans (h : s.Passes cs s') (h' : s'.Passes ds s'') : s.Passes (cs ++ ds) s'' where
  rest := by rw [h.rest, h'.rest, List.append_assoc]
  read := by rw [h'.read, h.read, List.reverse_append, List.append_assoc]
  place := by rw [h'.place, h.place, Place.advance_append]

theorem Passes.offset_eq (h : s.Passes cs s') :
    s'.place.offset = s.place.offset + String.utf8Len cs := by
  rw [h.place, Place.offset_advance]

theorem Passes.offset_lt (h : s.Passes cs s') (hcs : cs ≠ []) :
    s.place.offset < s'.place.offset := by
  have hpos : String.utf8Len cs ≠ 0 := fun hzero => hcs (String.utf8Len_eq_zero.mp hzero)
  rw [h.offset_eq]
  omega

theorem Reads.refl (s : Scanner) : s.Reads [] s :=
  ⟨⟨rfl, rfl, rfl⟩, (Bool.or_false _).symm⟩

theorem Reads.trans (h : s.Reads cs s') (h' : s'.Reads ds s'') : s.Reads (cs ++ ds) s'' where
  toPasses := h.toPasses.trans h'.toPasses
  lineStart := by
    rw [h'.lineStart, h.lineStart, Bool.or_assoc]
    simp

end Passes

theorem reads_bumps (s : Scanner) (n : Nat) : s.Reads (s.rest.take n) (s.bumps n) := by
  induction n generalizing s with
  | zero => exact .refl s
  | succ n ih =>
    obtain ⟨read, rest, place, lineStart⟩ := s
    cases rest with
    | nil =>
      have hnone := ih ⟨read, [], place, lineStart⟩
      rwa [List.take_nil] at hnone ⊢
    | cons c r =>
      have hone : Reads ⟨read, c :: r, place, lineStart⟩ [c]
          ⟨c :: read, r, place.step c, lineStart || c == '\n'⟩ :=
        ⟨⟨rfl, rfl, rfl⟩, by simp [beq_eq_decide, eq_comm]⟩
      exact hone.trans (ih _)

/-- A scanner is behind another one, or at the same place. -/
def Reaches (s s' : Scanner) : Prop :=
  ∃ cs, s.Reads cs s'

theorem Reaches.refl (s : Scanner) : s.Reaches s :=
  ⟨[], .refl s⟩

theorem Reaches.trans {s s' s'' : Scanner} (h : s.Reaches s') (h' : s'.Reaches s'') :
    s.Reaches s'' := by
  obtain ⟨cs, hcs⟩ := h
  obtain ⟨ds, hds⟩ := h'
  exact ⟨cs ++ ds, hcs.trans hds⟩

theorem Reaches.offset_le {s s' : Scanner} (h : s.Reaches s') :
    s.place.offset ≤ s'.place.offset := by
  obtain ⟨cs, hcs⟩ := h
  rw [hcs.offset_eq]
  exact Nat.le_add_right _ _

theorem reaches_bumps (s : Scanner) (n : Nat) : s.Reaches (s.bumps n) :=
  ⟨_, s.reads_bumps n⟩

/-- Whoever reads something stands further on. -/
theorem offset_lt_bumps {s : Scanner} {n : Nat} (hpos : 0 < n) (hle : n ≤ s.rest.length) :
    s.place.offset < (s.bumps n).place.offset := by
  refine (s.reads_bumps n).offset_lt fun hnone => ?_
  have hlen := congrArg List.length hnone
  rw [List.length_take, List.length_nil] at hlen
  omega

end Scanner

/-! ### Calls go forward -/

/-- One call is entered while another one is active: at a later place, or at the same place if it is a
literal and the other one a hole, which it starts. -/
def Activation.Inside (inner outer : Activation) : Prop :=
  outer.entry.place.offset ≤ inner.entry.place.offset ∧
    (outer.entry.place.offset = inner.entry.place.offset →
      inner.call.isHole = false ∧ outer.call.isHole = true)

/-- A call that is entered further on is inside of all that are active. -/
theorem Activation.inside_of_lt {callee inner outer : Activation}
    (hlt : inner.entry.place.offset < callee.entry.place.offset)
    (houter : outer = inner ∨ inner.Inside outer) : callee.Inside outer := by
  have hle : outer.entry.place.offset ≤ inner.entry.place.offset := by
    rcases houter with rfl | houter
    · exact le_rfl
    · exact houter.1
  exact ⟨by omega, fun heq => by omega⟩

/-- A literal that a hole meets is inside of the hole, and of all calls that the hole is inside of. -/
theorem Activation.inside_of_hole {callee inner outer : Activation}
    (hcallee : callee.call.isHole = false) (hinner : inner.call.isHole = true)
    (hle : inner.entry.place.offset ≤ callee.entry.place.offset)
    (houter : outer = inner ∨ inner.Inside outer) : callee.Inside outer := by
  rcases houter with rfl | houter
  · exact ⟨hle, fun _ => ⟨hcallee, hinner⟩⟩
  · -- The hole was not entered where any other call was.
    have hne : outer.entry.place.offset ≠ inner.entry.place.offset := fun heq =>
      Bool.false_ne_true ((houter.2 heq).1.symm.trans hinner)
    have hbelow := houter.1
    exact ⟨by omega, fun heq => by omega⟩

/-- A call was entered between two scanners, behind the literal that is left open if it fails. -/
structure Activation.Between (s₀ s : Scanner) (a : Activation) : Prop where
  start : s₀.Reaches a.start
  entry : s₀.Reaches a.entry
  here : a.entry.Reaches s

theorem Activation.Between.trans {s₀ s s' : Scanner} {a : Activation} (h : a.Between s₀ s)
    (hs : s.Reaches s') : a.Between s₀ s' :=
  ⟨h.start, h.entry, h.here.trans hs⟩

namespace Scan

/-- All scanners in a state come from the one at the start by reading, and each call is inside of
those that wait for it. -/
def Nested (s₀ : Scanner) : Scan → Prop
  | .running inner s stack =>
    (inner :: stack).Pairwise Activation.Inside ∧ ∀ a ∈ inner :: stack, a.Between s₀ s
  | .done s => s₀.Reaches s
  | .failed left => s₀.Reaches left.start ∧ s₀.Reaches left.stop

variable {s₀ s s' : Scanner} {inner : Activation} {stack : List Activation}

theorem nested_start (call : Call) (s : Scanner) : (start call s).Nested s := by
  refine ⟨List.pairwise_singleton _ _, fun a ha => ?_⟩
  rw [List.mem_singleton.mp ha]
  exact ⟨.refl s, .refl s, .refl s⟩

theorem nested_resume (h : (running inner s stack).Nested s₀) (hs : s.Reaches s') :
    (resume s' stack).Nested s₀ := by
  obtain ⟨hpairs, hbetween⟩ := h
  cases stack with
  | nil =>
    have hinner := hbetween inner List.mem_cons_self
    exact (hinner.entry.trans hinner.here).trans hs
  | cons outer stack =>
    refine ⟨(List.pairwise_cons.mp hpairs).2, fun a ha => ?_⟩
    exact (hbetween a (List.mem_cons_of_mem _ ha)).trans hs

/-- A call may be entered where it is inside of the innermost one, and so of all others. -/
theorem nested_enter {callee : Call} (h : (running inner s stack).Nested s₀) (hs : s.Reaches s')
    (hinside : ∀ start outer, outer = inner ∨ inner.Inside outer →
      Activation.Inside ⟨s', start, callee⟩ outer) :
    (enter callee inner s' stack).Nested s₀ := by
  obtain ⟨hpairs, hbetween⟩ := h
  have hinner := (hbetween inner List.mem_cons_self).trans hs
  refine ⟨List.pairwise_cons.mpr ⟨fun outer houter => ?_, hpairs⟩, fun a ha => ?_⟩
  · have hbelow := (List.pairwise_cons.mp hpairs).1 outer
    exact hinside _ outer ((List.mem_cons.mp houter).imp_right hbelow)
  · rcases List.mem_cons.mp ha with rfl | ha
    · refine ⟨?_, hinner.entry.trans hinner.here, .refl s'⟩
      -- A hole that is left open is reported as its literal.
      show s₀.Reaches (if callee.isHole then inner.start else s')
      split
      · exact hinner.start
      · exact hinner.entry.trans hinner.here
    · exact (hbetween a ha).trans hs

/-- **One step keeps the calls nested.** -/
theorem nested_step {x : Scan} (h : x.Nested s₀) : x.step.Nested s₀ := by
  cases x with
  | done s => exact h
  | failed left => exact h
  | running inner s stack =>
    have hforward := inner.call.forward_turn s.rest
    have hinner := h.2 inner List.mem_cons_self
    have hentry := hinner.here.offset_le
    show (apply inner s stack (inner.call.turn s.rest)).Nested s₀
    generalize inner.call.turn s.rest = turn at hforward ⊢
    cases turn with
    | on call n =>
      obtain ⟨-, -, hhole⟩ := hforward
      obtain ⟨hpairs, hbetween⟩ := h
      obtain ⟨hbelow, hstack⟩ := List.pairwise_cons.mp hpairs
      have hread := s.reaches_bumps n
      refine ⟨List.pairwise_cons.mpr ⟨fun outer houter => ?_, hstack⟩, fun a ha => ?_⟩
      · -- The call does something else, but it was entered where it was entered.
        obtain ⟨hle, hsame⟩ := hbelow outer houter
        exact ⟨hle, fun heq => (hsame heq).imp_left hhole.trans⟩
      · rcases List.mem_cons.mp ha with rfl | ha
        · exact ⟨hinner.start, hinner.entry, hinner.here.trans hread⟩
        · exact (hbetween a (List.mem_cons_of_mem _ ha)).trans hread
    | back n => exact nested_resume h (s.reaches_bumps n)
    | fail what n => exact ⟨hinner.start, (hinner.entry.trans hinner.here).trans (s.reaches_bumps n)⟩
    | enter callee n =>
      refine nested_enter h (s.reaches_bumps n) fun start outer houter => ?_
      rcases hforward with ⟨-, -, hpos, hle⟩ | ⟨hcallee, hcall, rfl⟩
      · -- A hole is entered behind its brace.
        exact Activation.inside_of_lt (hentry.trans_lt (Scanner.offset_lt_bumps hpos hle)) houter
      · exact Activation.inside_of_hole hcallee hcall hentry houter
    | reread callee =>
      obtain ⟨hcallee, hcall, r, hr⟩ := hforward
      show (enter callee inner s.bump.back stack).Nested s₀
      rw [Scanner.back_bump hr]
      exact nested_enter h (.refl s) fun start outer houter =>
        Activation.inside_of_hole hcallee hcall hentry houter

/-- **Calls stay nested** along every run. -/
theorem nested_iterate {x : Scan} (h : x.Nested s₀) (n : Nat) : (step^[n] x).Nested s₀ := by
  induction n with
  | zero => exact h
  | succ n ih =>
    rw [Function.iterate_succ_apply']
    exact nested_step ih

/-- What the scanning of a literal ends with, as a state. -/
def ofResult : Except Unfinished Scanner → Scan
  | .ok s => .done s
  | .error left => .failed left

/-- The scanning is over after as many steps as there is work. -/
theorem iterate_eq_ofResult {n : Nat} {x : Scan} (h : x.work ≤ n) :
    step^[n] x = ofResult x.run := by
  induction n generalizing x with
  | zero =>
    cases x with
    | running inner s stack =>
      have hlt := lt_work_running inner s stack
      omega
    | done s => rw [run]; rfl
    | failed left => rw [run]; rfl
  | succ n ih =>
    rw [Function.iterate_succ_apply]
    cases x with
    | running inner s stack =>
      have hlt := work_step_lt (x := running inner s stack) rfl
      rw [ih (by omega), run]
    | done s =>
      rw [run]
      exact Function.iterate_fixed rfl n
    | failed left =>
      rw [run]
      exact Function.iterate_fixed rfl n

/-- What the scanning ends with was reached by reading. -/
theorem nested_run {x : Scan} (h : x.Nested s₀) : (ofResult x.run).Nested s₀ := by
  rw [← iterate_eq_ofResult (le_refl x.work)]
  exact nested_iterate h _

end Scan

/-! ### The machine is right -/

/-- What is left when a call returns, as the scanners say that know of no places. -/
def Call.finish (start : List Char) : Call → List Char → Except Open (List Char)
  | .string, cs =>
    match Opening.of? cs with
    | none => .error ⟨.stringLiteral, start, cs⟩
    | some o =>
      if 3 ≤ o.quotes then (rawRest start o.quotes o.body.rest).map Cut.rest
      else (quotedRest start o.verbatim o.interpolated o.body.rest).map Cut.rest
  | .raw quotes, cs => (rawRest start quotes cs).map Cut.rest
  | .quoted verbatim interpolated, cs => (quotedRest start verbatim interpolated cs).map Cut.rest
  | .hole depth, cs => (holeRest start depth cs).map Cut.rest
  | .quote, [] => .error ⟨.characterLiteral, start, []⟩
  | .quote, _ :: r => (charRest start r).map Cut.rest
  | .char, cs => (charRest start cs).map Cut.rest

/-- What is left when a call that is entered at a text returns. A hole belongs to the literal that
it is entered from. -/
def Call.finishAt (start : List Char) (callee : Call) (cs : List Char) :
    Except Open (List Char) :=
  callee.finish (if callee.isHole then start else cs) cs

/-- What is left after a turn of a call and all that follows it. -/
def Turn.finish (start : List Char) (call : Call) (cs : List Char) :
    Turn → Except Open (List Char)
  | .on call n => call.finish start (cs.drop n)
  | .back n => .ok (cs.drop n)
  | .fail what n => .error ⟨what, start, cs.drop n⟩
  | .enter callee n => (callee.finishAt start (cs.drop n)).bind (call.finish start)
  | .reread callee => (callee.finishAt start cs).bind (call.finish start)

/-- What is put in front of a scanned part does not change what is left. -/
theorem map_rest_map {cs ds : List Char} {x : Except Open (Cut cs)} {f : Cut cs → Cut ds}
    (hf : ∀ t, (f t).rest = t.rest := by intro t; rfl) :
    x.map Cut.rest = (x.map f).map Cut.rest := by
  cases x with
  | error left => rfl
  | ok t => exact congrArg Except.ok (hf t).symm

/-- Two scanners one after the other leave what the second one leaves. -/
theorem map_rest_bind {cs ds : List Char} {x : Except Open (Cut cs)}
    {g : (cs : List Char) → Except Open (Cut cs)} {f : (t : Cut cs) → Cut t.rest → Cut ds}
    (hf : ∀ t u, (f t u).rest = u.rest := by intro t u; rfl) :
    ((x.map Cut.rest).bind fun rest => (g rest).map Cut.rest) =
      (x.bind fun t => (g t.rest).map (f t)).map Cut.rest := by
  cases x with
  | error left => rfl
  | ok t => exact map_rest_map (hf t)

/-- Behind as many characters as a part has, what is left of a text is what the part leaves. -/
theorem drop_read {cs : List Char} (t : Cut cs) : cs.drop t.read.length = t.rest := by
  have hcs := congrArg (List.drop t.read.length) t.read_append_rest
  rw [List.drop_left] at hcs
  exact hcs.symm

section Turns

variable (start : List Char)

theorem finish_quotedTurn (verbatim interpolated : Bool) (cs : List Char) :
    (quotedTurn verbatim interpolated cs).finish start (.quoted verbatim interpolated) cs =
      (quotedRest start verbatim interpolated cs).map Cut.rest := by
  -- The cases of a turn are those of `quotedRest`: the end, a line break, an escape, two quotes
  -- or one, two braces or one, and any other character.
  fun_cases quotedTurn verbatim interpolated cs with
  | case1 => rw [quotedRest_nil]; rfl
  | case2 c r hbreak =>
    obtain ⟨rfl, hverbatim⟩ := hbreak
    rw [Bool.eq_false_iff.mpr hverbatim, quotedRest_break]
    rfl
  | case3 c _ hescape =>
    obtain ⟨rfl, hverbatim⟩ := hescape
    rw [Bool.eq_false_iff.mpr hverbatim, quotedRest_escape_nil]
    rfl
  | case4 c r _ hescape hne =>
    obtain ⟨rfl, hverbatim⟩ := hescape
    obtain ⟨d, r, rfl⟩ := List.exists_cons_of_ne_nil hne
    rw [quotedRest_pair _ _ _ _ (.inl ⟨rfl, Bool.eq_false_iff.mpr hverbatim⟩)]
    exact map_rest_map
  | case5 r hpair =>
    obtain ⟨hquote, rfl⟩ := hpair
    obtain ⟨r, rfl⟩ := List.head?_eq_some_iff.mp hquote
    rw [quotedRest_pair _ _ _ _ (.inr (.inl ⟨rfl, rfl, rfl⟩))]
    exact map_rest_map
  | case6 r hsingle =>
    rw [quotedRest_quote _ _ _ _ (by rintro rfl r' rfl; exact hsingle ⟨rfl, rfl⟩)]
    rfl
  | case7 c r _ _ _ hbrace hpair =>
    obtain ⟨rfl, rfl⟩ := hbrace
    obtain ⟨r, rfl⟩ := List.head?_eq_some_iff.mp hpair
    rw [quotedRest_pair _ _ _ _ (.inr (.inr ⟨rfl, rfl, rfl⟩))]
    exact map_rest_map
  | case8 c r _ _ _ hbrace hsingle =>
    obtain ⟨rfl, rfl⟩ := hbrace
    rw [quotedRest_hole _ _ _ (by rintro r' rfl; exact hsingle rfl)]
    exact map_rest_bind
  | case9 c r hbreak hescape hquote hbrace =>
    rw [quotedRest_plain _ _ _ _ hquote (by grind) (by grind)]
    exact map_rest_map

/-- A string literal that is entered where it opens is closed as its opening says. -/
theorem finish_string {cs : List Char} {o : Opening cs} (ho : Opening.of? cs = some o) :
    Call.string.finish cs cs = o.close.map Cut.rest := by
  rw [Opening.close]
  unfold Call.finish
  simp only [ho]
  split
  · exact map_rest_map
  · exact map_rest_map

theorem finish_holeTurn (depth : Nat) (cs : List Char) :
    (holeTurn depth cs).finish start (.hole depth) cs =
      (holeRest start depth cs).map Cut.rest := by
  fun_cases holeTurn depth cs with
  | case1 _ _ o ho =>
    rw [holeRest_literal _ _ ho]
    show (Call.string.finish cs cs).bind _ = _
    rw [finish_string ho]
    exact map_rest_bind
  | case2 => rw [holeRest_nil]; rfl
  | case3 r =>
    rw [holeRest_open]
    exact map_rest_map
  | case4 r => rw [holeRest_end]; rfl
  | case5 r depth =>
    rw [holeRest_shut]
    exact map_rest_map
  | case6 r =>
    rw [holeRest_char]
    exact map_rest_bind
  | case7 _ c r hopen hshut hquote ho =>
    rw [holeRest_plain _ _ ho ⟨hopen, hshut, hquote⟩]
    exact map_rest_map

theorem finish_charTurn (cs : List Char) :
    (charTurn cs).finish start .char cs = (charRest start cs).map Cut.rest := by
  fun_cases charTurn cs with
  | case1 => rfl
  | case2 => rfl
  | case3 c r => exact map_rest_map
  | case4 r => rfl
  | case5 r => rfl
  | case6 c r hlast hescape hquote hbreak =>
    rw [charRest]
    · exact map_rest_map
    · exact hlast
    · exact hescape
    · exact hquote
    · exact hbreak

theorem finish_rawTurn (quotes : Nat) (cs : List Char) :
    (rawTurn quotes cs).finish start (.raw quotes) cs = (rawRest start quotes cs).map Cut.rest := by
  cases cs with
  | nil => rfl
  | cons c r =>
    rw [rawTurn, rawRest]
    split
    · exact congrArg Except.ok (drop_read _)
    · exact map_rest_map

theorem finish_openingTurn (cs : List Char) :
    (openingTurn cs).finish start .string cs = Call.string.finish start cs := by
  unfold openingTurn
  cases ho : Opening.of? cs with
  | none => simp [Turn.finish, Call.finish, ho]
  | some o =>
    show Call.finish start _ (cs.drop o.body.read.length) = _
    rw [drop_read]
    by_cases hraw : 3 ≤ o.quotes
    · simp only [Call.finish, ho, if_pos hraw]
    · simp only [Call.finish, ho, if_neg hraw]

/-- **A turn does not change what is left in the end.** -/
theorem Call.finish_turn (call : Call) (cs : List Char) :
    (call.turn cs).finish start call cs = call.finish start cs := by
  cases call with
  | string => exact finish_openingTurn start cs
  | raw quotes => exact finish_rawTurn start quotes cs
  | quoted verbatim interpolated => exact finish_quotedTurn start verbatim interpolated cs
  | hole depth => exact finish_holeTurn start depth cs
  | quote => cases cs <;> rfl
  | char => exact finish_charTurn start cs

end Turns

/-- What is left open, told by texts. -/
def Unfinished.toOpen (left : Unfinished) : Open :=
  ⟨left.what, left.start.rest, left.stop.rest⟩

namespace Scan

/-- What is left when all calls have returned, one after the other. -/
def finishAll (rest : List Char) : List Activation → Except Open (List Char)
  | [] => .ok rest
  | a :: stack => (a.call.finish a.start.rest rest).bind (finishAll · stack)

/-- What the scanning ends with, as the scanners say that know of no places. -/
def answer : Scan → Except Open (List Char)
  | .running inner s stack => finishAll s.rest (inner :: stack)
  | .done s => .ok s.rest
  | .failed left => .error left.toOpen

theorem answer_enter (callee : Call) (inner : Activation) (s : Scanner) (stack : List Activation) :
    (enter callee inner s stack).answer =
      ((callee.finishAt inner.start.rest s.rest).bind (inner.call.finish inner.start.rest)).bind
        (finishAll · stack) := by
  have hstart : (if callee.isHole then inner.start else s).rest =
      if callee.isHole then inner.start.rest else s.rest := apply_ite Scanner.rest _ _ _
  show (callee.finish (if callee.isHole then inner.start else s).rest s.rest).bind _ = _
  rw [hstart, Call.finishAt]
  cases callee.finish (if callee.isHole then inner.start.rest else s.rest) s.rest <;> rfl

/-- One step keeps the answer. -/
theorem answer_step (x : Scan) : x.step.answer = x.answer := by
  cases x with
  | done s => rfl
  | failed left => rfl
  | running inner s stack =>
    have hforward := inner.call.forward_turn s.rest
    show _ = (inner.call.finish inner.start.rest s.rest).bind (finishAll · stack)
    rw [← Call.finish_turn]
    show (apply inner s stack (inner.call.turn s.rest)).answer = _
    generalize inner.call.turn s.rest = turn at hforward ⊢
    -- The turn is known to finish the call; here each kind of turn is carried out on the stack.
    cases turn with
    | on call n =>
      show (call.finish _ (s.bumps n).rest).bind _ = _
      rw [Scanner.rest_bumps]
      rfl
    | back n =>
      show (resume (s.bumps n) stack).answer = finishAll (s.rest.drop n) stack
      rw [← Scanner.rest_bumps]
      cases stack <;> rfl
    | fail what n =>
      show Except.error (Open.mk _ _ (s.bumps n).rest) = _
      rw [Scanner.rest_bumps]
      rfl
    | enter callee n =>
      show (enter callee inner (s.bumps n) stack).answer = _
      rw [answer_enter, Scanner.rest_bumps]
      rfl
    | reread callee =>
      obtain ⟨-, -, r, hr⟩ := hforward
      show (enter callee inner s.bump.back stack).answer = _
      rw [Scanner.back_bump hr, answer_enter]
      rfl

/-- **The machine ends with what the scanners say.** -/
theorem answer_eq (x : Scan) : x.answer = (x.run.map Scanner.rest).mapError Unfinished.toOpen := by
  fun_induction run x with
  | case1 s => rfl
  | case2 left => rfl
  | case3 inner s stack ih => rw [← ih, answer_step]

theorem answer_start (call : Call) (s : Scanner) :
    (start call s).answer = call.finish s.rest s.rest := by
  show (call.finish s.rest s.rest).bind _ = _
  cases call.finish s.rest s.rest <;> rfl

end Scan

end ClassSugar.Token
