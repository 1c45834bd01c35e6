import ClassSugar.Proofs.TokenRanges

/-!
# Steady readers

`Reader.Steady k ts W f p p' c Q` follows two readers at once: `p` at a cursor on the tokens `ts`,
and `p'` at the same cursor over tokens that stand `k` bytes further on. It says that

* **they do the same.** Both take the same tokens. If they succeed then `f` turns the one value into
  the other, and if they fail then the errors are the same but for their place;
* **they get on.** The readers stay on the tokens, never give back a token that they did not take,
  and never fail for the want of progress: the cause `stalled` is what keeps repeated and recursive
  readers total, and no steady reader needs it;
* **`Q` holds** of the value and of the cursor after it. A reader has nothing to build its value
  from but the tokens and the comments in front of them, so what is known of these, `W`, may be used.

The cursor that a reader leaves matters also where it fails, for that cursor is gone back on
(`Reader.attempt`). There is a rule for each way to put readers together, and one for each of the
basic readers.

* `Steady.rounds`: a repetition is steady if each of its rounds ends it, fails or takes a token.
* `Steady.nested`: a recursive reader is steady if it takes a token before it calls itself. It then
  does what its own body does (`nested_eq`).
* `loop_of_rounds`: such a repetition is the plain loop, which nothing stops but its own rounds, and
  there are at most as many rounds that go on as there are tokens ahead.

Mostly the two readers are the same. That they may be different is for the recursive readers, which
are given a reader for what is nested in them.
-/

namespace ClassSugar

namespace Reader

variable {α β : Type}

/-- **Two readers in step**, `p` at the cursor and `p'` at the cursor `k` bytes further on. -/
def Steady (k : Nat) (ts : List Token) (W : Token → Prop) (f : α → α) (p p' : Reader α)
    (c : Cursor) (Q : α → Cursor → Prop) : Prop :=
  c.Within ts W →
    match p c with
    | .ok a c' => p' (c.shift k) = .ok (f a) (c'.shift k) ∧
      c'.Within ts W ∧ c.position ≤ c'.position ∧ Q a c'
    | .error e c' => p' (c.shift k) = .error (e.shift k) (c'.shift k) ∧
      c'.Within ts W ∧ c.position ≤ c'.position ∧ e.cause ≠ .stalled

namespace Steady

variable {k : Nat} {ts : List Token} {W : Token → Prop} {f : α → α} {g : β → β} {p p' : Reader α}
  {q q' : α → Reader β} {c : Cursor} {Q : α → Cursor → Prop} {R : β → Cursor → Prop}

/-! ### Putting readers together -/

theorem of_ok {a : α} {c' : Cursor} (h : Steady k ts W f p p' c Q) (hc : c.Within ts W)
    (hrun : p c = .ok a c') : p' (c.shift k) = .ok (f a) (c'.shift k) ∧
      c'.Within ts W ∧ c.position ≤ c'.position ∧ Q a c' := by
  have hp := h hc
  rw [hrun] at hp
  exact hp

theorem of_error {e : SyntaxError} {c' : Cursor} (h : Steady k ts W f p p' c Q)
    (hc : c.Within ts W) (hrun : p c = .error e c') :
    p' (c.shift k) = .error (e.shift k) (c'.shift k) ∧
      c'.Within ts W ∧ c.position ≤ c'.position ∧ e.cause ≠ .stalled := by
  have hp := h hc
  rw [hrun] at hp
  exact hp

/-- What is known of a value that is read from any tokens. -/
theorem holds {a : α} {c' : Cursor} (h : Steady 0 ts (fun _ => True) f p p' c Q) (hc : c.On ts)
    (hrun : p c = .ok a c') : Q a c' :=
  (h.of_ok hc.within hrun).2.2.2

theorem mono {Q' : α → Cursor → Prop} (h : Steady k ts W f p p' c Q)
    (hQ : ∀ a c', c'.Within ts W → c.position ≤ c'.position → Q a c' → Q' a c') :
    Steady k ts W f p p' c Q' := by
  intro hc
  cases hp : p c with
  | error e c' => exact h.of_error hc hp
  | ok a c' =>
    obtain ⟨hsame, hon, hle, ha⟩ := h.of_ok hc hp
    exact ⟨hsame, hon, hle, hQ a c' hon hle ha⟩

/-- What is known of the cursor may be used. -/
theorem of_within (h : c.Within ts W → Steady k ts W f p p' c Q) : Steady k ts W f p p' c Q :=
  fun hc => h hc hc

theorem pure {a a' : α} (hmove : a' = f a) (h : Q a c) :
    Steady k ts W f (Pure.pure a) (Pure.pure a') c Q := by
  rw [hmove]
  exact fun hc => ⟨rfl, hc, Nat.le_refl _, h⟩

/-- **One reader after the other.** The second starts where the first one stopped. -/
theorem bind (hp : Steady k ts W f p p' c Q)
    (hq : ∀ a c', c'.Within ts W → c.position ≤ c'.position → Q a c' →
      Steady k ts W g (q a) (q' (f a)) c' R) :
    Steady k ts W g (p >>= q) (p' >>= q') c R := by
  intro hc
  rw [bind_apply, bind_apply]
  cases hfirst : p c with
  | error e c₁ =>
    obtain ⟨hsame, hstays⟩ := hp.of_error hc hfirst
    rw [hsame]
    exact ⟨rfl, hstays⟩
  | ok a c₁ =>
    obtain ⟨hsame, hon, hle, ha⟩ := hp.of_ok hc hfirst
    have hnext := hq a c₁ hon hle ha
    rw [hsame]
    dsimp only
    cases hsecond : q a c₁ with
    | error e c₂ =>
      obtain ⟨hsame', hon', hle', hcause⟩ := hnext.of_error hon hsecond
      exact ⟨hsame', hon', Nat.le_trans hle hle', hcause⟩
    | ok b c₂ =>
      obtain ⟨hsame', hon', hle', hb⟩ := hnext.of_ok hon hsecond
      exact ⟨hsame', hon', Nat.le_trans hle hle', hb⟩

/-- The first reader returns nothing that could move. -/
theorem next (hp : Steady k ts W id p p' c Q)
    (hq : ∀ a c', c'.Within ts W → c.position ≤ c'.position → Q a c' →
      Steady k ts W g (q a) (q' a) c' R) :
    Steady k ts W g (p >>= q) (p' >>= q') c R :=
  bind hp hq

/-- A reader that only looks leaves the cursor where it is. -/
theorem look {a a' : α} (hp : p c = .ok a c) (hp' : p' (c.shift k) = .ok a' (c.shift k))
    (h : Steady k ts W g (q a) (q' a') c R) : Steady k ts W g (p >>= q) (p' >>= q') c R := by
  intro hc
  rw [bind_apply, bind_apply, hp, hp']
  exact h hc

theorem map {h h' : α → β} (hp : Steady k ts W f p p' c fun a c' => R (h a) c')
    (hmove : ∀ a, h' (f a) = g (h a)) : Steady k ts W g (h <$> p) (h' <$> p') c R := by
  rw [map_eq_pure_bind, map_eq_pure_bind]
  exact bind hp fun a c' _ _ ha => pure (hmove a) ha

theorem ite {b : Prop} [Decidable b] {p₂ p₂' : Reader α} (h : b → Steady k ts W f p p' c Q)
    (h₂ : ¬b → Steady k ts W f p₂ p₂' c Q) :
    Steady k ts W f (if b then p else p₂) (if b then p' else p₂') c Q := by
  by_cases hb : b
  · rw [if_pos hb, if_pos hb]
    exact h hb
  · rw [if_neg hb, if_neg hb]
    exact h₂ hb

/-- Two ways to come to the same point and go on from there. -/
theorem ite_bind {b : Prop} [Decidable b] {p₂ p₂' : Reader α} (h : b → Steady k ts W f p p' c Q)
    (h₂ : ¬b → Steady k ts W f p₂ p₂' c Q)
    (hq : ∀ a c', c'.Within ts W → c.position ≤ c'.position → Q a c' →
      Steady k ts W g (q a) (q' (f a)) c' R) :
    Steady k ts W g (if b then p >>= q else p₂ >>= q) (if b then p' >>= q' else p₂' >>= q') c R :=
  ite (fun hb => bind (h hb) hq) fun hb => bind (h₂ hb) hq

theorem throw {e : SyntaxError} (h : e.cause ≠ .stalled) :
    Steady k ts W f (MonadExcept.throw e) (MonadExcept.throw (e.shift k)) c Q :=
  fun hc => ⟨rfl, hc, Nat.le_refl _, h⟩

theorem failAt {cause : SyntaxError.Cause} (h : cause ≠ .stalled) (span : Span) :
    Steady k ts W f (Reader.failAt cause span) (Reader.failAt cause (span.shift k)) c Q :=
  throw h

/-- **Trying.** A reader that fails or finds nothing gives back just what it took. -/
theorem attempt {p p' : Reader (Option α)} {Q : Option α → Cursor → Prop}
    (h : Steady k ts W (Option.map f) p p' c Q) :
    Steady k ts W (Option.map f) (Reader.attempt p) (Reader.attempt p') c fun found c' =>
      (found = none ∧ c'.position = c.position) ∨ Q found c' := by
  intro hc
  -- Nothing before the attempt was given back, so moving back ends where it started.
  have hback : ∀ c' : Cursor, c'.Within ts W → c.position ≤ c'.position →
      (.ok none ((c'.shift k).rewind c.position) : EStateM.Result SyntaxError Cursor (Option α)) =
          .ok none ((c'.rewind c.position).shift k) ∧
        (c'.rewind c.position).Within ts W ∧ c.position ≤ (c'.rewind c.position).position ∧
          (c'.rewind c.position).position = c.position := by
    intro c' hon hle
    have hposition := Cursor.position_rewind hle
    exact ⟨by rw [Cursor.rewind_shift], hon.rewind _, Nat.le_of_eq hposition.symm, hposition⟩
  rw [Reader.attempt, Reader.attempt, Cursor.position_shift]
  cases hrun : p c with
  | error e c₁ =>
    obtain ⟨hsame, hon, hle, -⟩ := h.of_error hc hrun
    obtain ⟨hsame', hon', hle', hposition⟩ := hback c₁ hon hle
    rw [hsame]
    exact ⟨hsame', hon', hle', .inl ⟨rfl, hposition⟩⟩
  | ok found c₁ =>
    obtain ⟨hsame, hon, hle, hQ⟩ := h.of_ok hc hrun
    rw [hsame]
    cases found with
    | none =>
      obtain ⟨hsame', hon', hle', hposition⟩ := hback c₁ hon hle
      exact ⟨hsame', hon', hle', .inl ⟨rfl, hposition⟩⟩
    | some a => exact ⟨rfl, hon, hle, .inr hQ⟩

/-- One round of a repetition, each find of which satisfies `P`: it ends the repetition, fails, or
takes a token. -/
def Round (k : Nat) (ts : List Token) (W : Token → Prop) (f : α → α)
    (round round' : Reader (List α × Bool)) (P : α → Prop) (c : Cursor) : Prop :=
  Steady k ts W (Prod.map (List.map f) id) round round' c fun found c' =>
    (∀ a ∈ found.1, P a) ∧ (found.2 = true → c.position < c'.position)

theorem round_ended {P : α → Prop} {start : Cursor} {found found' : List α}
    (hmove : found' = found.map f) (h : ∀ a ∈ found, P a) :
    Steady k ts W (Prod.map (List.map f) id) (Pure.pure (found, false)) (Pure.pure (found', false))
      c fun found c' => (∀ a ∈ found.1, P a) ∧ (found.2 = true → start.position < c'.position) :=
  pure (by rw [hmove]; rfl) ⟨h, fun hmore => by cases hmore⟩

theorem round_goes_on {P : α → Prop} {start : Cursor} {found found' : List α}
    (hmove : found' = found.map f) (h : ∀ a ∈ found, P a) (hlt : start.position < c.position) :
    Steady k ts W (Prod.map (List.map f) id) (Pure.pure (found, true)) (Pure.pure (found', true))
      c fun found c' => (∀ a ∈ found.1, P a) ∧ (found.2 = true → start.position < c'.position) :=
  pure (by rw [hmove]; rfl) ⟨h, fun _ => hlt⟩

/-- **Repetition.** If every round ends it, fails or takes a token, then the rounds get to an end by
themselves. -/
theorem rounds {round round' : Reader (List α × Bool)} {P : α → Prop}
    (h : ∀ c', c.position ≤ c'.position → Round k ts W f round round' P c') :
    Steady k ts W (List.map f) (Reader.rounds round) (Reader.rounds round') c fun found _ =>
      ∀ a ∈ found, P a := by
  intro hc
  fun_induction Reader.rounds round c with
  | case1 c e c₁ hround =>
    obtain ⟨hsame, hstays⟩ := (h c (Nat.le_refl _)).of_error hc hround
    rw [Reader.rounds, hsame]
    exact ⟨rfl, hstays⟩
  | case2 c found c₁ hround =>
    obtain ⟨hsame, hon, hle, hfound, -⟩ := (h c (Nat.le_refl _)).of_ok hc hround
    rw [Reader.rounds, hsame]
    exact ⟨rfl, hon, hle, hfound⟩
  | case3 c found c₁ hround hlt more c₂ hmore ih =>
    obtain ⟨hsame, hon, hle, hfound, -⟩ := (h c (Nat.le_refl _)).of_ok hc hround
    have hrest := ih (fun c' hle' => h c' (Nat.le_trans hle hle')) hon
    rw [hmore] at hrest
    obtain ⟨hsame', hon', hle', hfound'⟩ := hrest
    rw [Reader.rounds, hsame]
    dsimp only [Prod.map, id]
    rw [if_pos (Cursor.ahead_shift_lt_iff.mpr hlt), hsame', List.map_append]
    exact ⟨rfl, hon', Nat.le_trans hle hle', List.forall_mem_append.mpr ⟨hfound, hfound'⟩⟩
  | case4 c found c₁ hround hlt e c₂ hmore ih =>
    obtain ⟨hsame, hon, hle, -⟩ := (h c (Nat.le_refl _)).of_ok hc hround
    have hrest := ih (fun c' hle' => h c' (Nat.le_trans hle hle')) hon
    rw [hmore] at hrest
    obtain ⟨hsame', hon', hle', hcause⟩ := hrest
    rw [Reader.rounds, hsame]
    dsimp only [Prod.map, id]
    rw [if_pos (Cursor.ahead_shift_lt_iff.mpr hlt), hsame']
    exact ⟨rfl, hon', Nat.le_trans hle hle', hcause⟩
  | case5 c found c₁ hround hlt =>
    -- A round that goes on has taken a token, so fewer are ahead.
    obtain ⟨-, hon, -, -, hmoves⟩ := (h c (Nat.le_refl _)).of_ok hc hround
    exact absurd ((hc.ahead_lt_iff hon.toOn).mpr (hmoves rfl)) hlt

section Nested

variable {body : (β → Reader α) → β → Reader α} {Q : Cursor → α → Cursor → Prop}
  (h : ∀ self self' b c,
    (∀ b' c', c.position < c'.position → Steady k ts W f (self b') (self' b') c' (Q c')) →
      Steady k ts W f (body self b) (body self' b) c (Q c))
include h

/-- The calls that a recursive reader makes are behind a token, where its guard lets them pass. -/
theorem nested_body {self' : β → Reader α} (b : β) (c : Cursor)
    (hself : ∀ b' c', c.position < c'.position →
      Steady k ts W f (Reader.nested body b') (self' b') c' (Q c')) :
    Steady k ts W f (Reader.nested body b) (body self' b) c (Q c) := by
  intro hc
  rw [Reader.nested]
  refine h _ self' b c (fun b' c' hlt hc' => ?_) hc
  rw [if_pos ((hc.ahead_lt_iff hc'.toOn).mpr hlt)]
  exact hself b' c' hlt hc'

/-- **Recursion.** Behind a token that was taken the reader may be assumed to be steady. -/
theorem nested (b : β) (c : Cursor) :
    Steady k ts W f (Reader.nested body b) (Reader.nested body b) c (Q c) := by
  induction hlength : c.ahead.length using Nat.strongRecOn generalizing b c with
  | ind length ih =>
    intro hc
    rw [Reader.nested.eq_def body b (c.shift k)]
    refine nested_body h b c (fun b' c' hlt hc' => ?_) hc
    have hfewer := (hc.ahead_lt_iff hc'.toOn).mpr hlt
    rw [if_pos (Cursor.ahead_shift_lt_iff.mpr hfewer)]
    exact ih _ (hlength ▸ hfewer) b' c' rfl hc'

end Nested

/-! ### Looking -/

theorem state {q q' : Cursor → Reader β} (h : Steady k ts W g (q c) (q' (c.shift k)) c R) :
    Steady k ts W g (MonadState.get >>= q) (MonadState.get >>= q') c R :=
  look rfl rfl h

theorem ahead {q q' : List Token → Reader β}
    (h : Steady k ts W g (q c.ahead) (q' (c.ahead.map (Token.shift k 0))) c R) :
    Steady k ts W g (Reader.ahead >>= q) (Reader.ahead >>= q') c R :=
  look rfl rfl h

theorem position {q q' : Nat → Reader β}
    (h : Steady k ts W g (q c.position) (q' c.position) c R) :
    Steady k ts W g (Reader.position >>= q) (Reader.position >>= q') c R := by
  refine look rfl rfl ?_
  rw [Cursor.position_shift]
  exact h

theorem peek {q q' : Token → Reader β}
    (h : Steady k ts W g (q c.current) (q' (c.current.shift k 0)) c R) :
    Steady k ts W g (Reader.peek >>= q) (Reader.peek >>= q') c R := by
  refine look rfl rfl ?_
  rw [Cursor.current_shift]
  exact h

section Tests

variable {q q' : Bool → Reader β}

theorem atPunct (text : String)
    (h : Steady k ts W g (q (Lookahead.atPunct text c.ahead)) (q' (Lookahead.atPunct text c.ahead))
      c R) :
    Steady k ts W g (Reader.atPunct text >>= q) (Reader.atPunct text >>= q') c R := by
  refine look rfl rfl ?_
  rw [Cursor.ahead_shift, Lookahead.atPunct_shift]
  exact h

theorem atWord (word : String)
    (h : Steady k ts W g (q (Lookahead.atWord word c.ahead)) (q' (Lookahead.atWord word c.ahead))
      c R) :
    Steady k ts W g (Reader.atWord word >>= q) (Reader.atWord word >>= q') c R := by
  refine look rfl rfl ?_
  rw [Cursor.ahead_shift, Lookahead.atWord_shift]
  exact h

theorem atEnd (h : Steady k ts W g (q c.ahead.isEmpty) (q' c.ahead.isEmpty) c R) :
    Steady k ts W g (Reader.atEnd >>= q) (Reader.atEnd >>= q') c R := by
  refine look rfl rfl ?_
  rw [Cursor.ahead_shift, List.isEmpty_map]
  exact h

end Tests

theorem expected (what : Expected) :
    Steady k ts W f (Reader.expected what) (Reader.expected what) c Q :=
  peek (failAt (fun h => by cases h) _)

/-! ### The basic readers -/

theorem take (n : Nat) :
    Steady k ts W (List.map (Token.shift k 0)) (Reader.take n) (Reader.take n) c fun run c' =>
      Token.IsRange ts c.position c'.position run ∧ run = c.ahead.take n ∧ c' = c.advance n ∧
        ∀ t ∈ run, W t := by
  intro hc
  have hrun : Reader.take n (c.shift k) =
      .ok ((c.ahead.take n).map (Token.shift k 0)) ((c.advance n).shift k) := by
    rw [← Cursor.advance_shift, List.map_take]
    rfl
  exact ⟨hrun, hc.advance n, (hc.isRange_take n).le, hc.isRange_take n, rfl, rfl,
    fun t ht => hc.all.ahead t (List.mem_of_mem_take ht)⟩

theorem skip : Steady k ts W id Reader.skip Reader.skip c fun _ c' => c' = c.advance 1 :=
  bind (take 1) fun _ _ _ _ h => pure rfl h.2.2.1

/-- A token that is ahead is taken. -/
theorem skip_of_ahead_ne (h : c.ahead ≠ []) :
    Steady k ts W id Reader.skip Reader.skip c fun _ c' => c'.position = c.position + 1 := by
  refine skip.mono ?_
  rintro _ _ - - rfl
  rw [Cursor.position_advance, Nat.min_eq_left (List.length_pos_of_ne_nil h)]

theorem skip_of_startsWith {test : Token → Bool} (h : Lookahead.startsWith test c.ahead = true) :
    Steady k ts W id Reader.skip Reader.skip c fun _ c' => c'.position = c.position + 1 := by
  apply skip_of_ahead_ne
  intro hnil
  rw [hnil] at h
  cases h

/-- What was taken since an earlier position. -/
theorem since {i : Nat} (hi : i ≤ c.position) :
    Steady k ts W (List.map (Token.shift k 0)) (Reader.since i) (Reader.since i) c fun run c' =>
      c' = c ∧ Token.IsRange ts i c.position run ∧ (i < c.position → run ≠ []) ∧
        ∀ t ∈ run, W t := by
  intro hc
  have hrun : Reader.since i (c.shift k) = .ok ((c.since i).map (Token.shift k 0)) (c.shift k) := by
    rw [← Cursor.since_shift]
    rfl
  exact ⟨hrun, hc, Nat.le_refl _, rfl, hc.isRange_since hi, Cursor.since_ne_nil, hc.all.since i⟩

theorem takeComments :
    Steady k ts W (List.map (Verbatim.shift k)) Reader.takeComments Reader.takeComments c
      fun found c' => c' = c.dropComments ∧
        ∀ v ∈ found, ∃ t, W t ∧ ∃ k ∈ t.leading, Verbatim.ofComment k = v := by
  intro hc
  have hcomments : (c.shift k).current.leading.map Verbatim.ofComment =
      (c.current.leading.map Verbatim.ofComment).map (Verbatim.shift k) := by
    rw [Cursor.current_shift, Token.shift, List.map_map, List.map_map]
    exact List.map_congr_left fun comment _ => Verbatim.ofComment_shift k comment
  have hrun : Reader.takeComments (c.shift k) =
      .ok ((c.current.leading.map Verbatim.ofComment).map (Verbatim.shift k))
        (c.dropComments.shift k) := by
    rw [← hcomments, ← Cursor.dropComments_shift]
    rfl
  exact ⟨hrun, ⟨hc.dropComments, hc.all.dropComments⟩,
    Nat.le_of_eq Cursor.position_dropComments.symm, rfl,
    fun v hv => ⟨c.current, hc.all.current, List.mem_map.mp hv⟩⟩

/-- A token that passes a test is taken, and if none is ahead then nothing is. -/
theorem skip_if (test : Token → Bool) :
    let skipped : Reader Bool := do
      if Lookahead.startsWith test c.ahead then
        Reader.skip
        return true
      else
        return false
    Steady k ts W id skipped skipped c fun found c' =>
      (found = true ∧ c'.position = c.position + 1) ∨
        (found = false ∧ c' = c ∧ Lookahead.startsWith test c.ahead = false) := by
  refine ite (fun h => ?_) fun h => ?_
  · exact bind (skip_of_startsWith h) fun _ _ _ _ hpos => pure rfl (.inl ⟨rfl, hpos⟩)
  · exact pure rfl (.inr ⟨rfl, rfl, Bool.eq_false_iff.mpr h⟩)

theorem eatPunct (text : String) :
    Steady k ts W id (Reader.eatPunct text) (Reader.eatPunct text) c fun found c' =>
      (found = true ∧ c'.position = c.position + 1) ∨
        (found = false ∧ c' = c ∧ Lookahead.atPunct text c.ahead = false) :=
  atPunct text (skip_if fun t => t.isPunct text)

theorem eatWord (word : String) :
    Steady k ts W id (Reader.eatWord word) (Reader.eatWord word) c fun found c' =>
      (found = true ∧ c'.position = c.position + 1) ∨
        (found = false ∧ c' = c ∧ Lookahead.atWord word c.ahead = false) :=
  atWord word (skip_if fun t => t.isIdent word)

theorem expectPunct (text : String) :
    Steady k ts W id (Reader.expectPunct text) (Reader.expectPunct text) c fun _ c' =>
      c'.position = c.position + 1 := by
  refine next (eatPunct text) ?_
  rintro _ c' - - (⟨rfl, hpos⟩ | ⟨rfl, -, -⟩)
  · exact pure rfl hpos
  · exact expected _

theorem expectWord (word : String) :
    Steady k ts W id (Reader.expectWord word) (Reader.expectWord word) c fun _ c' =>
      c'.position = c.position + 1 := by
  refine next (eatWord word) ?_
  rintro _ c' - - (⟨rfl, hpos⟩ | ⟨rfl, -, -⟩)
  · exact pure rfl hpos
  · exact expected _

theorem expectIdent :
    Steady k ts W id Reader.expectIdent Reader.expectIdent c fun word c' =>
      c'.position = c.position + 1 ∧ ∃ t, W t ∧ t.ident? = some word := by
  refine peek ?_
  rw [Token.ident?_shift]
  cases hword : c.current.ident? with
  | none => exact expected _
  | some word =>
    refine of_within fun hc => ?_
    -- The end of the file is no word, so the word is ahead.
    have hahead : c.ahead ≠ [] := by
      intro hnil
      have hkind : c.last.kind = .eof := by simpa [Token.isEof] using hc.last
      rw [Cursor.current, hnil, List.headD_nil, Token.ident?, hkind] at hword
      cases hword
    refine next (skip_of_ahead_ne hahead) fun _ _ _ _ hpos => pure rfl ?_
    exact ⟨hpos, c.current, hc.all.current, hword⟩

/-- The words taken are the texts of tokens that are words. -/
theorem takeWords (test : String → Bool) :
    Steady k ts W id (Reader.takeWords test) (Reader.takeWords test) c fun words _ =>
      ∀ w ∈ words, ∃ t, W t ∧ t.ident?.isSome = true ∧ t.text = w := by
  have hwords : (c.ahead.map (Token.shift k 0)).takeWhile (fun t => t.ident?.any test) =
      (c.ahead.takeWhile fun t => t.ident?.any test).map (Token.shift k 0) :=
    List.takeWhile_map
  refine ahead ?_
  dsimp only
  rw [hwords, List.length_map]
  refine bind (take _) ?_
  rintro _ _ - - ⟨-, rfl, -, hall⟩
  refine pure (Token.map_text_shift k _) (List.forall_mem_map.mpr fun t ht => ?_)
  refine ⟨t, hall t ht, ?_, rfl⟩
  -- As many tokens are taken as there are such words ahead, so what is taken are these words.
  rw [← List.prefix_iff_eq_take.mp (List.takeWhile_prefix _)] at ht
  have htest := List.mem_takeWhile_imp ht
  exact Option.isSome_of_any htest

/-- The tokens up to one outside of brackets are balanced, and that one is ahead of the cursor. -/
theorem takeUntil (angles : Bool) {stop : Token → Bool} (hstop : Token.Blind k stop) :
    Steady k ts W (List.map (Token.shift k 0)) (Reader.takeUntil angles stop)
      (Reader.takeUntil angles stop) c fun run c' =>
      Token.IsRange ts c.position c'.position run ∧
        (angles = false → Token.Balanced run) ∧ c'.ahead ≠ [] ∧ ∀ t ∈ run, W t := by
  refine ahead ?_
  rw [Lookahead.countUntil_shift angles hstop]
  cases hn : Lookahead.countUntil angles stop 0 c.ahead with
  | ok n =>
    refine (take n).mono ?_
    rintro _ _ - - ⟨hrange, rfl, rfl, hall⟩
    refine ⟨hrange, ?_, ?_, hall⟩
    · rintro rfl
      exact (Lookahead.closes_of_countUntil hn).balanced
    · obtain ⟨t, rest, hsplit, -⟩ := Lookahead.exists_of_countUntil hn
      have hlength := congrArg List.length hsplit
      rw [List.length_append, List.length_take, List.length_cons] at hlength
      rw [Cursor.ahead_advance, Ne, List.drop_eq_nil_iff]
      omega
  | error endless =>
    cases endless with
    | atEnd => exact state (failAt (fun h => by cases h) _)
    | atBracket t => exact failAt (fun h => by cases h) _

/-- A group that is taken is balanced, and has its two brackets at least. -/
theorem takeGroup? :
    Steady k ts W (Option.map (List.map (Token.shift k 0))) Reader.takeGroup? Reader.takeGroup? c
      fun found c' =>
      (∃ run, found = some run ∧ Token.IsRange ts c.position c'.position run ∧
        Token.Balanced run ∧ 2 ≤ run.length ∧ ∀ t ∈ run, W t) ∨ (found = none ∧ c' = c) := by
  refine ahead ?_
  rw [Lookahead.skipGroup_shift]
  cases hgroup : Lookahead.skipGroup c.ahead with
  | none => exact pure rfl (.inr ⟨rfl, rfl⟩)
  | some group =>
    dsimp only [Option.map_some]
    rw [Text.Tail.read_map, List.length_map]
    refine bind (take _) ?_
    rintro run c' - - ⟨hrange, rfl, rfl, hall⟩
    have hbrackets := Lookahead.isGroup_of_closeGroup hgroup
    refine pure rfl (.inl ⟨_, rfl, hrange, ?_, ?_, hall⟩) <;> rw [group.take_length_read]
    · exact hbrackets.closes.balanced
    · exact Nat.zero_add group.read.length ▸ hbrackets.two_le

end Steady

/-! ### Without the guards -/

/-- The plain loop over a round, without a look at the tokens ahead. From the cursor it ends with
the result, and the round was run `n` times. -/
inductive Loop (round : Reader (List α × Bool)) :
    Cursor → Nat → EStateM.Result SyntaxError Cursor (List α) → Prop
  | failed {c c' : Cursor} {e : SyntaxError} (h : round c = .error e c') :
    Loop round c 1 (.error e c')
  | ended {c c' : Cursor} {found : List α} (h : round c = .ok (found, false) c') :
    Loop round c 1 (.ok found c')
  | found {c c' c'' : Cursor} {n : Nat} {found more : List α} (h : round c = .ok (found, true) c')
    (hmore : Loop round c' n (.ok more c'')) : Loop round c (n + 1) (.ok (found ++ more) c'')
  | broken {c c' c'' : Cursor} {n : Nat} {found : List α} {e : SyntaxError}
    (h : round c = .ok (found, true) c') (hmore : Loop round c' n (.error e c'')) :
    Loop round c (n + 1) (.error e c'')

/-- **A steady repetition is the plain loop.** Every round that goes on takes a token, so there are
no more of them than there are tokens ahead. -/
theorem loop_of_rounds {ts : List Token} {f : α → α} {round : Reader (List α × Bool)}
    {P : α → Prop} {c : Cursor} (h : ∀ c', Steady.Round 0 ts (fun _ => True) f round round P c')
    (hc : c.On ts) : ∃ n, n ≤ c.ahead.length + 1 ∧ Loop round c n (rounds round c) := by
  fun_induction rounds round c with
  | case1 c e c₁ hround => exact ⟨1, Nat.le_add_left _ _, .failed hround⟩
  | case2 c found c₁ hround => exact ⟨1, Nat.le_add_left _ _, .ended hround⟩
  | case3 c found c₁ hround hlt more c₂ hmore ih =>
    obtain ⟨-, hon, -⟩ := (h c).of_ok hc.within hround
    obtain ⟨n, hn, hloop⟩ := ih hon.toOn
    rw [hmore] at hloop
    exact ⟨n + 1, by omega, .found hround hloop⟩
  | case4 c found c₁ hround hlt e c₂ hmore ih =>
    obtain ⟨-, hon, -⟩ := (h c).of_ok hc.within hround
    obtain ⟨n, hn, hloop⟩ := ih hon.toOn
    rw [hmore] at hloop
    exact ⟨n + 1, by omega, .broken hround hloop⟩
  | case5 c found c₁ hround hlt =>
    obtain ⟨-, hon, -, -, hmoves⟩ := (h c).of_ok hc.within hround
    exact absurd ((hc.ahead_lt_iff hon.toOn).mpr (hmoves rfl)) hlt

/-- **A recursive reader is its own body**, if it takes a token before it calls itself: what it
would do at a call that takes none makes no difference. -/
theorem nested_eq {ts : List Token} {f : α → α} {body : (β → Reader α) → β → Reader α}
    {Q : Cursor → α → Cursor → Prop}
    (h : ∀ self self' b c, (∀ b' c', c.position < c'.position →
        Steady 0 ts (fun _ => True) f (self b') (self' b') c' (Q c')) →
      Steady 0 ts (fun _ => True) f (body self b) (body self' b) c (Q c))
    {b : β} {c : Cursor} (hc : c.On ts) : nested body b c = body (nested body) b c := by
  -- Both do what the reader does at the same cursor, moved by no byte.
  have hself := Steady.nested h b c
  have hbody := Steady.nested_body h b c fun b' c' _ => Steady.nested h b' c'
  cases hrun : nested body b c with
  | ok a c' =>
    have hsame := (hself.of_ok hc.within hrun).1
    have hsame' := (hbody.of_ok hc.within hrun).1
    rw [Cursor.shift_zero] at hsame hsame'
    rw [hsame', ← hsame, hrun]
  | error e c' =>
    have hsame := (hself.of_error hc.within hrun).1
    have hsame' := (hbody.of_error hc.within hrun).1
    rw [Cursor.shift_zero] at hsame hsame'
    rw [hsame', ← hsame, hrun]

end Reader

end ClassSugar
