import ClassSugar.Proofs.BracketBalance
import ClassSugar.Proofs.PassedLeaves
import ClassSugar.Proofs.ShiftedLookahead

/-!
# Cursors on tokens

A cursor is *on* a sequence of tokens if what it has taken and what is ahead of it are these tokens,
but for comments that were taken, and the end of the file stands behind them. Its position is then
an index into the sequence, and the end of the file has the index `ts.length`. What it takes on its
way is a run between two indices (`Token.IsRange`).

A property `W` of tokens that survives the loss of comments holds of all tokens that a cursor takes,
if it holds of all tokens of the cursor (`Cursor.Within`).

`Cursor.shift` is the same cursor over tokens that stand some bytes further on. All that can be done
to a cursor commutes with it.
-/

namespace ClassSugar

/-! ### Runs of tokens by their indices -/

namespace Token

/-- The tokens from the index `i` up to the index `j`. -/
def range (ts : List Token) (i j : Nat) : List Token :=
  (ts.take j).drop i

/-- The run is that from `i` up to `j`, two indices in order and none behind the end. Comments in
front of its tokens may be missing. -/
structure IsRange (ts : List Token) (i j : Nat) (run : List Token) : Prop where
  le : i ≤ j
  le_length : j ≤ ts.length
  bare_eq : run.map bare = (range ts i j).map bare

namespace IsRange

variable {ts run : List Token} {i j : Nat}

theorem length_eq (h : IsRange ts i j run) : i + run.length = j := by
  have hlength := congrArg List.length h.bare_eq
  have hj := h.le_length
  have hij := h.le
  rw [List.length_map, List.length_map, range, List.length_drop, List.length_take] at hlength
  omega

theorem lt_of_ne_nil (h : IsRange ts i j run) (hne : run ≠ []) : i < j := by
  have hlength := h.length_eq
  have hpos := List.length_pos_of_ne_nil hne
  omega

theorem whole (h : run.map bare = ts.map bare) : IsRange ts 0 ts.length run where
  le := Nat.zero_le _
  le_length := Nat.le_refl _
  bare_eq := by
    rw [range, List.take_length, List.drop_zero]
    exact h

/-- A part of a run is a run. -/
theorem part {front back : List Token} (h : IsRange ts i j (front ++ run ++ back)) :
    IsRange ts (i + front.length) (i + front.length + run.length) run := by
  have hlength := h.length_eq
  rw [List.length_append, List.length_append] at hlength
  have hj := h.le_length
  refine ⟨by omega, by omega, ?_⟩
  -- Cutting the front and the back off the whole run leaves the part, on both sides.
  have hcut : (range ts i j).map bare = front.map bare ++ (run.map bare ++ back.map bare) := by
    rw [← h.bare_eq, List.map_append, List.map_append, List.append_assoc]
  have hpart : range ts (i + front.length) (i + front.length + run.length) =
      ((range ts i j).drop front.length).take run.length := by
    simp only [range, List.drop_take, List.take_take, List.drop_drop]
    rw [Nat.add_sub_cancel_left, Nat.min_eq_left (by omega)]
  calc run.map bare
      = (((range ts i j).map bare).drop front.length).take run.length := by
        rw [hcut, List.drop_left' (List.length_map _), List.take_left' (List.length_map _)]
    _ = (range ts (i + front.length) (i + front.length + run.length)).map bare := by
        rw [hpart, List.map_take, List.map_drop]

/-- What stands between the first token of a run and its last. -/
theorem inner (h : IsRange ts i j run) (htwo : 2 ≤ run.length) :
    IsRange ts (i + 1) (j - 1) (run.drop 1).dropLast := by
  obtain ⟨first, rest, rfl⟩ := List.exists_cons_of_length_pos (Nat.lt_of_lt_of_le Nat.two_pos htwo)
  have hrest : rest ≠ [] := by
    rintro rfl
    exact Nat.not_succ_le_self 1 htwo
  have hlength := h.length_eq
  have hsplit : first :: rest = [first] ++ rest.dropLast ++ [rest.getLast hrest] := by
    rw [List.append_assoc, List.dropLast_append_getLast, List.singleton_append]
  rw [hsplit] at h
  have hpart := h.part
  have hend : i + [first].length + rest.dropLast.length = j - 1 := by
    have hpos := List.length_pos_of_ne_nil hrest
    rw [List.length_cons] at hlength
    rw [List.length_singleton, List.length_dropLast]
    omega
  rw [hend] at hpart
  exact hpart

theorem ofTokens_eq (h : IsRange ts i j run) :
    Verbatim.ofTokens run = Verbatim.ofTokens (range ts i j) :=
  Verbatim.ofTokens_congr h.bare_eq

theorem spell_eq (h : IsRange ts i j run) : spell run = spell (range ts i j) := by
  rw [← spell_map_bare run, h.bare_eq, spell_map_bare]

theorem map_bracket_eq (h : IsRange ts i j run) :
    run.map bracket = (range ts i j).map bracket := by
  -- A comment in front of a token does not make it a bracket.
  have hbare : bracket ∘ bare = bracket := rfl
  have hsame := congrArg (List.map bracket) h.bare_eq
  rw [List.map_map, List.map_map, hbare] at hsame
  exact hsame

theorem balanced (h : IsRange ts i j run) (hrun : Balanced run) : Balanced (range ts i j) :=
  hrun.congr h.map_bracket_eq

end IsRange

end Token

/-! ### Moved cursors -/

theorem Token.shift_zero : Token.shift 0 0 = id := by
  have hcomments : Comment.shift 0 = id := rfl
  funext t
  rw [Token.shift, hcomments, List.map_id]
  rfl

namespace Cursor

variable (k : Nat) (c : Cursor)

/-- The cursor over tokens that stand `k` bytes further on. -/
def shift : Cursor :=
  ⟨c.behind.map (Token.shift k 0), c.ahead.map (Token.shift k 0), c.last.shift k 0⟩

@[simp] theorem ahead_shift : (c.shift k).ahead = c.ahead.map (Token.shift k 0) := rfl

@[simp] theorem position_shift : (c.shift k).position = c.position :=
  List.length_map _

theorem current_shift : (c.shift k).current = c.current.shift k 0 := by
  rw [current, current, ahead_shift]
  cases c.ahead <;> rfl

theorem advance_shift (n : Nat) : (c.shift k).advance n = (c.advance n).shift k := by
  simp only [advance, shift, List.map_append, List.map_reverse, List.map_take, List.map_drop]

theorem rewind_shift (position : Nat) :
    (c.shift k).rewind position = (c.rewind position).shift k := by
  simp only [rewind, shift, List.length_map, List.map_append, List.map_reverse, List.map_take,
    List.map_drop]

theorem since_shift (position : Nat) :
    (c.shift k).since position = (c.since position).map (Token.shift k 0) := by
  simp only [since, shift, List.length_map, List.map_reverse, List.map_take]

theorem dropComments_shift : (c.shift k).dropComments = c.dropComments.shift k := by
  obtain ⟨behind, ahead, last⟩ := c
  cases ahead <;> rfl

theorem shift_zero (c : Cursor) : c.shift 0 = c := by
  rw [shift, Token.shift_zero, List.map_id, List.map_id]
  rfl

theorem ahead_shift_lt_iff {c c' : Cursor} {k : Nat} :
    (c'.shift k).ahead.length < (c.shift k).ahead.length ↔ c'.ahead.length < c.ahead.length := by
  rw [ahead_shift, ahead_shift, List.length_map, List.length_map]

theorem ofTokens_shift {ts : List Token} (h : ts ≠ []) :
    ofTokens (ts.map (Token.shift k 0)) = (ofTokens ts).shift k := by
  rw [ofTokens, ofTokens, ← List.map_dropLast, List.getLast?_map, List.getLast?_eq_some_getLast h]
  rfl

variable {c}

theorem position_advance (n : Nat) :
    (c.advance n).position = c.position + min n c.ahead.length := by
  rw [position, advance, List.length_append, List.length_reverse, List.length_take, position]
  exact Nat.add_comm _ _

theorem position_rewind {position : Nat} (h : position ≤ c.position) :
    (c.rewind position).position = position := by
  rw [Cursor.position] at h
  rw [rewind, Cursor.position, List.length_drop]
  omega

theorem position_dropComments : c.dropComments.position = c.position := by
  rw [dropComments]
  split <;> rfl

/-- Something was taken since an earlier position. -/
theorem since_ne_nil {position : Nat} (h : position < c.position) : c.since position ≠ [] := by
  rw [Cursor.position] at h
  rw [since, Ne, List.reverse_eq_nil_iff, List.take_eq_nil_iff]
  rintro (hzero | hnil)
  · omega
  · rw [hnil] at h
    exact Nat.not_lt_zero _ h

end Cursor

/-! ### Cursors on tokens -/

namespace Cursor

/-- The cursor stands somewhere in the tokens, and the end of the file behind them. -/
structure On (ts : List Token) (c : Cursor) : Prop where
  tokens : (c.behind.reverse ++ c.ahead).map Token.bare = ts.map Token.bare
  last : c.last.isEof = true

namespace On

variable {ts : List Token} {c : Cursor}

theorem length_eq (h : c.On ts) : c.position + c.ahead.length = ts.length := by
  have hlength := congrArg List.length h.tokens
  rw [List.length_map, List.length_map, List.length_append, List.length_reverse] at hlength
  exact hlength

/-- The cursor does not pass the end of the file. -/
theorem position_le (h : c.On ts) : c.position ≤ ts.length :=
  h.length_eq ▸ Nat.le_add_right _ _

theorem ofTokens {eof : Token} (h : eof.isEof = true) : (Cursor.ofTokens (ts ++ [eof])).On ts where
  tokens := by
    show (([] : List Token).reverse ++ (ts ++ [eof]).dropLast).map Token.bare = _
    rw [List.dropLast_concat]
    rfl
  last := by
    show (((ts ++ [eof]).getLast?).getD default).isEof = true
    rw [List.getLast?_concat]
    exact h

theorem advance (h : c.On ts) (n : Nat) : (c.advance n).On ts where
  tokens := by
    rw [← h.tokens, Cursor.advance, List.reverse_append, List.reverse_reverse, List.append_assoc,
      List.take_append_drop]
  last := h.last

theorem rewind (h : c.On ts) (position : Nat) : (c.rewind position).On ts where
  tokens := by
    rw [← h.tokens, Cursor.rewind]
    dsimp only
    rw [← List.append_assoc, ← List.reverse_append, List.take_append_drop]
  last := h.last

theorem dropComments (h : c.On ts) : c.dropComments.On ts := by
  obtain ⟨behind, ahead, last⟩ := c
  cases ahead with
  | nil => exact ⟨h.tokens, h.last⟩
  | cons t ahead =>
    refine ⟨?_, h.last⟩
    rw [← h.tokens, List.map_append, List.map_append]
    rfl

/-- The next tokens are those from the cursor on. -/
theorem isRange_take (h : c.On ts) (n : Nat) :
    Token.IsRange ts c.position (c.advance n).position (c.ahead.take n) := by
  have hall := Token.IsRange.whole h.tokens
  rw [← List.take_append_drop n c.ahead, ← List.append_assoc] at hall
  have hpart := hall.part
  rw [Nat.zero_add, List.length_reverse, List.length_take] at hpart
  rw [position_advance]
  exact hpart

/-- The tokens taken since an earlier position are those from it up to the cursor. -/
theorem isRange_since (h : c.On ts) {i : Nat} (hi : i ≤ c.position) :
    Token.IsRange ts i c.position (c.since i) := by
  rw [Cursor.position] at hi
  have hall := Token.IsRange.whole h.tokens
  have hsplit : c.behind.reverse =
      (c.behind.drop (c.behind.length - i)).reverse ++ c.since i := by
    rw [Cursor.since, ← List.reverse_append, List.take_append_drop]
  rw [hsplit] at hall
  have hpart := hall.part
  have hfront : 0 + (c.behind.drop (c.behind.length - i)).reverse.length = i := by
    rw [List.length_reverse, List.length_drop]
    omega
  have hlength : i + (c.since i).length = c.position := by
    rw [Cursor.since, List.length_reverse, List.length_take, Cursor.position]
    omega
  rw [hfront, hlength] at hpart
  exact hpart

/-- Two cursors on the same tokens: the one further on has fewer tokens ahead. -/
theorem ahead_lt_iff {c' : Cursor} (h : c.On ts) (h' : c'.On ts) :
    c'.ahead.length < c.ahead.length ↔ c.position < c'.position := by
  have hlength := h.length_eq
  have hlength' := h'.length_eq
  omega

end On

/-- A property holds of every token of a cursor, taken or not, and of the end of the file. Taking
comments changes a token, so the property has to survive the loss of them. -/
structure All (W : Token → Prop) (c : Cursor) : Prop where
  behind : ∀ t ∈ c.behind, W t
  ahead : ∀ t ∈ c.ahead, W t
  last : W c.last
  bare : ∀ t, W t → W t.bare

namespace All

variable {W : Token → Prop} {c : Cursor}

theorem current (h : c.All W) : W c.current := by
  unfold Cursor.current
  cases hahead : c.ahead with
  | nil => exact h.last
  | cons t ts => exact h.ahead t (hahead ▸ List.mem_cons_self)

theorem advance (h : c.All W) (n : Nat) : (c.advance n).All W where
  behind := List.forall_mem_append.mpr
    ⟨fun t ht => h.ahead t (List.mem_of_mem_take (List.mem_reverse.mp ht)), h.behind⟩
  ahead := fun t ht => h.ahead t (List.mem_of_mem_drop ht)
  last := h.last
  bare := h.bare

theorem since (h : c.All W) (position : Nat) : ∀ t ∈ c.since position, W t :=
  fun t ht => h.behind t (List.mem_of_mem_take (List.mem_reverse.mp ht))

/-- Going back moves tokens from one side to the other. -/
theorem rewind (h : c.All W) (position : Nat) : (c.rewind position).All W where
  behind := fun t ht => h.behind t (List.mem_of_mem_drop ht)
  ahead := List.forall_mem_append.mpr ⟨h.since position, h.ahead⟩
  last := h.last
  bare := h.bare

theorem dropComments (h : c.All W) : c.dropComments.All W := by
  unfold Cursor.dropComments
  split
  · next t ts hahead =>
    obtain ⟨ht, hts⟩ := List.forall_mem_cons.mp (hahead ▸ h.ahead)
    exact ⟨h.behind, List.forall_mem_cons.mpr ⟨h.bare t ht, hts⟩, h.last, h.bare⟩
  · exact ⟨h.behind, h.ahead, h.bare _ h.last, h.bare⟩

end All

/-- The cursor is on the tokens, and the property holds of its tokens. -/
structure Within (ts : List Token) (W : Token → Prop) (c : Cursor) : Prop extends On ts c where
  all : c.All W

/-- A cursor on tokens of which nothing is asked. -/
theorem On.within {ts : List Token} {c : Cursor} (h : c.On ts) : c.Within ts fun _ => True :=
  ⟨h, fun _ _ => trivial, fun _ _ => trivial, trivial, fun _ _ => trivial⟩

theorem Within.advance {ts : List Token} {W : Token → Prop} {c : Cursor} (h : c.Within ts W)
    (n : Nat) : (c.advance n).Within ts W :=
  ⟨h.toOn.advance n, h.all.advance n⟩

theorem Within.rewind {ts : List Token} {W : Token → Prop} {c : Cursor} (h : c.Within ts W)
    (position : Nat) : (c.rewind position).Within ts W :=
  ⟨h.toOn.rewind position, h.all.rewind position⟩

end Cursor

end ClassSugar
