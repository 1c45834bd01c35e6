import ClassSugar.Grammar.Lookahead

/-!
# Balanced brackets

A run of tokens is *balanced* if its brackets cancel out: counted from its first token on, as many
are opened as closed, and never more closed than opened. The three ways in which code is delimited
by looking ahead, to a token outside of brackets, to the end of a statement and to the end of a
group, all keep a count of open brackets; each of them stops where the count is back at zero. With
the count at `depth` the tokens up to there close just `depth` brackets (`Closes`), and that is what
an induction over the tokens shows.

A balanced run changes nothing for brackets around it: where a group ends is found behind the run as
if the run were not there (`closeGroup_append`).
-/

namespace ClassSugar

open ClassSugar.Text

namespace Token

/-- What a token adds to the number of open brackets. -/
def bracket (t : Token) : Int :=
  if Lookahead.isOpen t then 1 else if Lookahead.isClose t then -1 else 0

/-- The brackets that tokens open, less those that they close. -/
def net : List Token → Int
  | [] => 0
  | t :: ts => t.bracket + net ts

/-- The brackets of the tokens cancel out, and none is closed before it is opened. -/
structure Balanced (ts : List Token) : Prop where
  nonneg : ∀ front, front <+: ts → 0 ≤ net front
  total : net ts = 0

/-- The tokens close `depth` brackets that were open before them, and all that they open. -/
structure Closes (depth : Nat) (ts : List Token) : Prop where
  nonneg : ∀ front, front <+: ts → 0 ≤ depth + net front
  total : depth + net ts = 0

theorem Closes.balanced {ts : List Token} (h : Closes 0 ts) : Balanced ts where
  nonneg front hfront := by simpa using h.nonneg front hfront
  total := by simpa using h.total

theorem Balanced.closes {ts : List Token} (h : Balanced ts) : Closes 0 ts where
  nonneg front hfront := by simpa using h.nonneg front hfront
  total := by simpa using h.total

theorem closes_nil : Closes 0 [] where
  nonneg front hfront := by
    rw [List.prefix_nil.mp hfront]
    exact Int.le_refl 0
  total := rfl

theorem net_congr {ts ts' : List Token} (h : ts.map bracket = ts'.map bracket) :
    net ts = net ts' := by
  induction ts generalizing ts' with
  | nil =>
    rw [List.map_eq_nil_iff.mp h.symm]
  | cons t ts ih =>
    cases ts' with
    | nil => cases h
    | cons t' ts' =>
      obtain ⟨ht, hts⟩ := List.cons.inj h
      show t.bracket + net ts = t'.bracket + net ts'
      rw [ht, ih hts]

/-- Only the brackets count. -/
theorem Balanced.congr {ts ts' : List Token} (h : Balanced ts)
    (hbrackets : ts.map bracket = ts'.map bracket) : Balanced ts' where
  nonneg front hfront := by
    have hsame : (ts.take front.length).map bracket = front.map bracket := by
      rw [List.map_take, hbrackets, ← List.map_take, ← List.prefix_iff_eq_take.mp hfront]
    rw [← net_congr hsame]
    exact h.nonneg _ (List.take_prefix _ _)
  total := by
    rw [← net_congr hbrackets]
    exact h.total

/-- One token in front. -/
theorem Closes.cons {depth depth' : Nat} {t : Token} {ts : List Token}
    (ht : (depth : Int) + t.bracket = depth') (h : Closes depth' ts) : Closes depth (t :: ts) where
  nonneg front hfront := by
    cases front with
    | nil =>
      show 0 ≤ (depth : Int) + 0
      omega
    | cons u front =>
      obtain ⟨rfl, hrest⟩ := List.cons_prefix_cons.mp hfront
      have hle := h.nonneg front hrest
      show 0 ≤ (depth : Int) + (u.bracket + net front)
      omega
  total := by
    have htotal := h.total
    show (depth : Int) + (t.bracket + net ts) = 0
    omega

section Bracket

variable {t : Token}

theorem bracket_of_isOpen (h : Lookahead.isOpen t = true) : t.bracket = 1 := by
  rw [bracket, if_pos h]

theorem bracket_of_isClose (hopen : ¬Lookahead.isOpen t = true) (h : Lookahead.isClose t = true) :
    t.bracket = -1 := by
  rw [bracket, if_neg hopen, if_pos h]

theorem bracket_of_plain (hopen : ¬Lookahead.isOpen t = true)
    (hclose : ¬Lookahead.isClose t = true) : t.bracket = 0 := by
  rw [bracket, if_neg hopen, if_neg hclose]

end Bracket

end Token

namespace Lookahead

open Token

/-- A count that is one more is the count of the tokens behind the first one. -/
theorem closes_take_of_map {r : Except Endless Nat} {depth depth' n : Nat} {t : Token}
    {ts : List Token} (ht : (depth : Int) + t.bracket = depth')
    (h : ∀ m, r = .ok m → Closes depth' (ts.take m)) (hn : r.map (· + 1) = .ok n) :
    Closes depth ((t :: ts).take n) := by
  cases r with
  | error e => cases hn
  | ok m =>
    cases hn
    exact (h m rfl).cons ht

/-- Up to a token outside of brackets all brackets are closed. -/
theorem closes_of_countUntil {stop : Token → Bool} {depth n : Nat} {ts : List Token}
    (h : countUntil false stop depth ts = .ok n) : Closes depth (ts.take n) := by
  fun_induction countUntil false stop depth ts generalizing n with
  | case1 => cases h
  | case2 depth t r hstop =>
    cases h
    rw [hstop.1]
    exact closes_nil
  | case3 depth t r hstop hopen ih =>
    have hopen : isOpen t = true := by simpa using hopen
    refine closes_take_of_map ?_ (fun m => ih) h
    rw [bracket_of_isOpen hopen]
    rfl
  | case4 t r hstop hopen hclose => cases h
  | case5 t r hopen hclose depth hstop ih =>
    have hopen : ¬isOpen t = true := by simpa using hopen
    have hclose : isClose t = true := by simpa using hclose
    refine closes_take_of_map ?_ (fun m => ih) h
    rw [bracket_of_isClose hopen hclose]
    omega
  | case6 depth t r hstop hopen hclose ih =>
    have hopen : ¬isOpen t = true := by simpa using hopen
    have hclose : ¬isClose t = true := by simpa using hclose
    refine closes_take_of_map ?_ (fun m => ih) h
    rw [bracket_of_plain hopen hclose]
    omega

/-- What is open behind a token that opens nothing, and closes nothing that was not open. -/
theorem depth_add_bracket {depth : Nat} {t : Token} (hopen : ¬isOpen t = true)
    (hclose : ¬(isClose t && depth == 0) = true) :
    (depth : Int) + t.bracket = (if isClose t then depth - 1 else depth : Nat) := by
  by_cases h : isClose t = true
  · have hpos : depth ≠ 0 := by
      rintro rfl
      exact hclose (by rw [h]; rfl)
    rw [if_pos h, bracket_of_isClose hopen h]
    omega
  · rw [if_neg h, bracket_of_plain hopen h]
    omega

/-- At the end of a statement all brackets are closed. -/
theorem closes_of_statementLength {loop : Bool} {depth n : Nat} {ts : List Token}
    (h : statementLength loop depth ts = .ok n) : Closes depth (ts.take n) := by
  fun_induction statementLength loop depth ts generalizing n with
  | case1 => cases h
  | case2 loop depth t r hopen ih =>
    refine closes_take_of_map ?_ (fun m => ih) h
    rw [bracket_of_isOpen hopen]
    rfl
  | case3 => cases h
  | case4 loop depth t r hopen hclose depth' ended hended hloop =>
    rename_i ih
    exact closes_take_of_map (depth_add_bracket hopen hclose) (fun m => ih) h
  | case5 loop depth t r hopen hclose depth' ended hended =>
    -- The statement ends only where nothing is open any more.
    have hdepth : depth' = 0 := by
      have hboth : ended = true := (Bool.and_eq_true_iff.mp hended).1
      simpa using (Bool.and_eq_true_iff.mp hboth).1
    cases h
    refine Closes.cons (depth_add_bracket hopen hclose) ?_
    show Closes depth' []
    rw [hdepth]
    exact closes_nil
  | case6 loop depth t r hopen hclose depth' ended hended =>
    rename_i ih
    exact closes_take_of_map (depth_add_bracket hopen hclose) (fun m => ih) h

end Lookahead

namespace Text.Tail

variable {α : Type}

theorem read_cons (c : α) {r : List α} (t : Tail r) : (t.cons c).read = c :: t.read := by
  have hsplit : (t.cons c).read ++ t.rest = (c :: t.read) ++ t.rest := by
    rw [List.cons_append, t.read_append_rest]
    exact (t.cons c).read_append_rest
  exact List.append_cancel_right hsplit

theorem read_one (c : α) (r : List α) : (one c r).read = [c] :=
  List.append_cancel_right ((one c r).read_append_rest : _ = [c] ++ r)

end Text.Tail

namespace Lookahead

open Token

/-- The rest of a group, behind `depth` brackets that are open: it closes them all, and the last of
them with its last token. -/
structure IsGroup (depth : Nat) (run : List Token) : Prop where
  closes : Closes depth run
  last : ∃ inner closing, run = inner ++ [closing] ∧ isClose closing = true ∧
    1 ≤ depth + inner.length

theorem IsGroup.cons {depth depth' : Nat} {t : Token} {run : List Token} (h : IsGroup depth' run)
    (ht : (depth : Int) + t.bracket = depth') : IsGroup depth (t :: run) := by
  obtain ⟨inner, closing, rfl, hclosing, -⟩ := h.last
  refine ⟨h.closes.cons ht, t :: inner, closing, rfl, hclosing, ?_⟩
  rw [List.length_cons]
  omega

/-- A group has at least the two brackets that it starts and ends with. -/
theorem IsGroup.two_le {depth : Nat} {run : List Token} (h : IsGroup depth run) :
    2 ≤ depth + run.length := by
  obtain ⟨inner, closing, rfl, -, hinner⟩ := h.last
  rw [List.length_append, List.length_singleton]
  omega

theorem isGroup_of_closeGroup {depth : Nat} {ts : List Token} {group : Tail ts}
    (h : closeGroup depth ts = some group) : IsGroup depth group.read := by
  -- A token that is passed stands before the group behind it.
  have hpass : ∀ {depth depth' : Nat} {t : Token} {r : List Token} {group : Tail (t :: r)},
      (depth : Int) + t.bracket = depth' →
      (∀ {group : Tail r}, closeGroup depth' r = some group → IsGroup depth' group.read) →
      (closeGroup depth' r).map (·.cons t) = some group → IsGroup depth group.read := by
    intro depth depth' t r group ht ih hgroup
    obtain ⟨rest, hrest, rfl⟩ := Option.map_eq_some_iff.mp hgroup
    rw [Tail.read_cons]
    exact (ih hrest).cons ht
  fun_induction closeGroup depth ts with
  | case1 => cases h
  | case2 depth t r hopen ih =>
    refine hpass ?_ ih h
    rw [bracket_of_isOpen hopen]
    rfl
  | case3 => cases h
  | case4 t r hopen hclose =>
    cases h
    rw [Tail.read_one]
    refine ⟨closes_nil.cons ?_, [], t, rfl, hclose, Nat.le_refl 1⟩
    rw [bracket_of_isClose hopen hclose]
    rfl
  | case5 t r hopen hclose depth ih =>
    refine hpass ?_ ih h
    rw [bracket_of_isClose hopen hclose]
    omega
  | case6 depth t r hopen hclose ih =>
    refine hpass ?_ ih h
    rw [bracket_of_plain hopen hclose]
    omega

/-- **A balanced run is passed like nothing**: behind tokens that close `k` brackets, what closes
the brackets around them is found where it would be without them. -/
theorem closeGroup_append {k : Nat} {run : List Token} (h : Closes k run) (depth : Nat)
    (rest : List Token) :
    (closeGroup (depth + 1 + k) (run ++ rest)).map Tail.rest =
      (closeGroup (depth + 1) rest).map Tail.rest := by
  -- A token in front changes only what was read.
  have hcons : ∀ {t : Token} {r : List Token} (x : Option (Tail r)),
      (x.map (·.cons t)).map Tail.rest = x.map Tail.rest := by
    intro t r x
    cases x <;> rfl
  induction run generalizing k with
  | nil =>
    have hzero : k = 0 := by
      have htotal : (k : Int) + 0 = 0 := h.total
      omega
    rw [hzero]
    rfl
  | cons t run ih =>
    have hfirst : 0 ≤ (k : Int) + (t.bracket + 0) :=
      h.nonneg [t] (List.cons_prefix_cons.mpr ⟨rfl, List.nil_prefix⟩)
    -- What is open behind the first token.
    have htail : ∀ {k' : Nat}, (k : Int) + t.bracket = k' → Closes k' run := by
      intro k' hk'
      refine ⟨fun front hfront => ?_, ?_⟩
      · have hle : 0 ≤ (k : Int) + (t.bracket + net front) :=
          h.nonneg (t :: front) (List.cons_prefix_cons.mpr ⟨rfl, hfront⟩)
        omega
      · have htotal : (k : Int) + (t.bracket + net run) = 0 := h.total
        omega
    rw [List.cons_append, closeGroup.eq_def]
    dsimp only
    by_cases hopen : isOpen t = true
    · have hk : Closes (k + 1) run := htail (by rw [bracket_of_isOpen hopen]; rfl)
      rw [if_pos hopen, hcons]
      exact ih hk
    rw [if_neg hopen]
    by_cases hclose : isClose t = true
    · rw [bracket_of_isClose hopen hclose] at hfirst
      obtain ⟨k, rfl⟩ : ∃ m, k = m + 1 := ⟨k - 1, by omega⟩
      have hk : Closes k run := htail (by rw [bracket_of_isClose hopen hclose]; omega)
      have hdeep : depth + 1 + (k + 1) = depth + k + 2 := by omega
      rw [if_pos hclose, hdeep]
      show ((closeGroup (depth + k + 1) (run ++ rest)).map _).map Tail.rest = _
      rw [hcons, Nat.add_right_comm]
      exact ih hk
    · have hk : Closes k run := htail (by rw [bracket_of_plain hopen hclose]; omega)
      rw [if_neg hclose, hcons]
      exact ih hk

end Lookahead

end ClassSugar
