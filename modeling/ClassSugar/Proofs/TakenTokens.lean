import ClassSugar.Proofs.PassedLeaves
import Mathlib.Data.List.TakeWhile

/-!
# What a reader takes

Most readers do nothing to a cursor but take tokens, with their comments. `Reader.Takes p c Q` says so
of a reader at a cursor: it passes the leaves of a run of the tokens ahead and drops nothing, and if
it succeeds then `Q` holds of the run and of what it returns. Behind the tokens ahead there has to be
the end of the file, which no reader takes for anything else.

This is `Reader.Lays` with a condition on the leaves, so its rules hold here too. Those that are
stated again speak of the run alone; and there is a rule for each of the basic readers. The last rules
follow a reader from one run to the next one, up to where it passes something else.
-/

namespace ClassSugar

/-- Looking for a token that passes a test finds one. -/
theorem Lookahead.exists_of_countUntil {angles : Bool} {stop : Token → Bool} {depth n : Nat}
    {ts : List Token} (h : countUntil angles stop depth ts = .ok n) :
    ∃ t rest, ts = ts.take n ++ t :: rest ∧ stop t = true := by
  -- A token that is passed stands before what is found behind it.
  have hpass : ∀ {t : Token} {r : List Token} {depth' n : Nat},
      (∀ m, countUntil angles stop depth' r = .ok m →
        ∃ u rest, r = r.take m ++ u :: rest ∧ stop u = true) →
      (countUntil angles stop depth' r).map (· + 1) = .ok n →
      ∃ u rest, t :: r = (t :: r).take n ++ u :: rest ∧ stop u = true := by
    intro t r depth' n ih hmap
    cases hr : countUntil angles stop depth' r with
    | error endless => rw [hr] at hmap; cases hmap
    | ok m =>
      rw [hr] at hmap
      cases hmap
      obtain ⟨u, rest, hsplit, hstop⟩ := ih m hr
      refine ⟨u, rest, ?_, hstop⟩
      rw [List.take_succ_cons, List.cons_append, ← hsplit]
  fun_induction countUntil angles stop depth ts generalizing n with
  | case1 => cases h
  | case2 depth t r hstop =>
    cases h
    exact ⟨t, r, rfl, hstop.2⟩
  | case3 depth t r hstop hopen ih => exact hpass (fun m => ih) h
  | case4 t r hstop hopen hclose => cases h
  | case5 t r hopen hclose depth hstop ih => exact hpass (fun m => ih) h
  | case6 depth t r hstop hopen hclose ih => exact hpass (fun m => ih) h

namespace Reader

variable {α β : Type}

/-- The leaves passed are those of a run of the tokens ahead, and nothing else has changed. -/
def Took (Q : List Token → α → Prop) (c : Cursor) (xs : List Leaf) (ks : List Comment) (a : α)
    (c' : Cursor) : Prop :=
  ∃ run rest, c.ahead = run ++ rest ∧ xs = Leaf.ofTokens run ∧ ks = [] ∧
    c' = c.advance run.length ∧ Q run a

/-- A run that is taken behind another one. -/
theorem Took.append {Q : List Token → α → Prop} {R : List Token → β → Prop} {c c' : Cursor}
    {run rest : List Token} {xs : List Leaf} {ks : List Comment} {a : α} {b : β}
    (h : Took Q (c.advance run.length) xs ks a c') (hrest : c.ahead = run ++ rest)
    (hR : ∀ run', Q run' a → R (run ++ run') b) :
    Took R c (Leaf.ofTokens run ++ xs) ([] ++ ks) b c' := by
  obtain ⟨run', rest', hrest', rfl, rfl, rfl, hQ⟩ := h
  rw [Cursor.ahead_advance_length hrest] at hrest'
  refine ⟨run ++ run', rest', ?_, (Leaf.ofTokens_append _ _).symm, rfl, ?_, hR run' hQ⟩
  · rw [hrest, hrest', List.append_assoc]
  · rw [Cursor.advance_advance, List.length_append]

/-- The reader takes a run of the tokens ahead. If it returns a value, then `Q` holds of the two. -/
def Takes (p : Reader α) (c : Cursor) (Q : List Token → α → Prop) : Prop :=
  Lays c p c (Took Q c)

namespace Takes

variable {p : Reader α} {f : α → Reader β} {c : Cursor} {Q : List Token → α → Prop}
  {R : List Token → β → Prop}

/-! ### Putting readers together -/

/-- The origin does not matter for what is taken. -/
theorem lays {origin : Cursor} (h : Takes p c Q) : Lays origin p c (Took Q c) :=
  fun hend _ => h hend (.refl c)

theorem mono {Q' : List Token → α → Prop} (h : Takes p c Q)
    (hQ : ∀ run rest a, c.ahead = run ++ rest → Q run a → Q' run a) : Takes p c Q' := by
  refine Lays.mono h ?_
  rintro _ _ a _ - ⟨run, rest, hrest, rfl, rfl, rfl, ha⟩
  exact ⟨run, rest, hrest, rfl, rfl, rfl, hQ run rest a hrest ha⟩

theorem pure {a : α} (h : Q [] a) : Takes (Pure.pure a) c Q :=
  Lays.pure ⟨[], c.ahead, rfl, rfl, rfl, rfl, h⟩

/-- **One reader after the other.** The runs that they take follow each other. -/
theorem bind (hp : Takes p c Q)
    (hf : ∀ a run rest, c.ahead = run ++ rest → Q run a →
      Takes (f a) (c.advance run.length) fun run' b => R (run ++ run') b) :
    Takes (p >>= f) c R := by
  refine Lays.bind hp ?_
  rintro a _ _ _ - ⟨run, rest, hrest, rfl, rfl, rfl, hQ⟩
  refine (hf a run rest hrest hQ).lays.mono fun xs ks b c' _ htook => ?_
  exact htook.append hrest fun _ => id

theorem look {a : α} (hp : p c = .ok a c) (h : Takes (f a) c R) : Takes (p >>= f) c R :=
  Lays.look hp h

theorem map {g : α → β} (hp : Takes p c fun run a => R run (g a)) : Takes (g <$> p) c R :=
  Lays.map hp

theorem ite {b : Prop} [Decidable b] {q : Reader α} (hp : b → Takes p c Q)
    (hq : ¬b → Takes q c Q) : Takes (if b then p else q) c Q :=
  Lays.ite hp hq

/-- **Repetition.** What one round and the rounds after it take and find goes together. -/
theorem rounds {round : Reader (List α × Bool)} {S : List Token → List α → Prop}
    (happend : ∀ run run' found found', S run found → S run' found' →
      S (run ++ run') (found ++ found'))
    (h : ∀ c, Takes round c fun run found => S run found.1) (c : Cursor) :
    Takes (Reader.rounds round) c S := by
  refine Lays.rounds (S := Took S) (T := Took S) ?_ (fun c₁ => ?_) c
  · rintro c₁ _ _ found _ xs ks more c₂ ⟨run, rest, hrest, rfl, rfl, rfl, hfound⟩ hmore
    exact hmore.append hrest fun run' => happend run run' found more hfound
  · -- A round takes its run whether or not another one follows.
    refine (h c₁).lays.mono fun xs ks found c' _ htook => ?_
    cases hgo : found.2 with
    | true => exact .inl ⟨rfl, htook⟩
    | false => exact .inr ⟨rfl, htook⟩

/-! ### The basic readers -/

theorem take (n : Nat) :
    Takes (Reader.take n) c fun run ts => ts = run ∧ run = c.ahead.take n := by
  have hrest : c.ahead = c.ahead.take n ++ c.ahead.drop n := (List.take_append_drop _ _).symm
  have hc : c.advance n = c.advance (c.ahead.take n).length := by
    rw [Cursor.advance, Cursor.advance, List.length_take, List.take_eq_take_min,
      List.drop_eq_drop_min]
  refine fun _ _ => ⟨Leaf.ofTokens (c.ahead.take n), [], ?_, _, _, hrest, rfl, rfl, hc, rfl, rfl⟩
  rw [hc]
  exact .advance hrest

theorem skip : Takes Reader.skip c fun run _ => run = c.ahead.take 1 := by
  refine bind (take 1) ?_
  rintro _ run rest - ⟨rfl, hrun⟩
  exact pure (by rw [List.append_nil, hrun])

theorem skip_of_ahead_eq {t : Token} {ts : List Token} (h : c.ahead = t :: ts) :
    Takes Reader.skip c fun run _ => run = [t] := by
  refine skip.mono ?_
  rintro run rest _ - hrun
  rw [hrun, h]
  rfl

/-- The token ahead is taken. -/
theorem skip_of_startsWith {test : Token → Bool} (h : Lookahead.startsWith test c.ahead = true) :
    Takes Reader.skip c fun run _ => ∃ t, run = [t] ∧ test t = true := by
  refine skip.mono ?_
  rintro run rest _ - hrun
  cases hc : c.ahead with
  | nil =>
    rw [hc] at h
    cases h
  | cons t ts =>
    rw [hc] at h hrun
    exact ⟨t, hrun, h⟩

theorem eatPunct (text : String) :
    Takes (Reader.eatPunct text) c fun run found =>
      (found = true ∧ ∃ t, run = [t] ∧ t.isPunct text = true) ∨
        (found = false ∧ run = [] ∧ Lookahead.atPunct text c.ahead = false) := by
  refine .look rfl (.ite (fun h => ?_) fun h => ?_)
  · refine bind (skip_of_startsWith h) ?_
    rintro _ _ rest - ⟨t, rfl, ht⟩
    exact pure (.inl ⟨rfl, t, rfl, ht⟩)
  · exact pure (.inr ⟨rfl, rfl, Bool.eq_false_iff.mpr h⟩)

theorem eatWord (word : String) :
    Takes (Reader.eatWord word) c fun run found =>
      (found = true ∧ ∃ t, run = [t] ∧ t.isIdent word = true) ∨
        (found = false ∧ run = [] ∧ Lookahead.atWord word c.ahead = false) := by
  refine .look rfl (.ite (fun h => ?_) fun h => ?_)
  · refine bind (skip_of_startsWith h) ?_
    rintro _ _ rest - ⟨t, rfl, ht⟩
    exact pure (.inl ⟨rfl, t, rfl, ht⟩)
  · exact pure (.inr ⟨rfl, rfl, Bool.eq_false_iff.mpr h⟩)

theorem expectPunct (text : String) :
    Takes (Reader.expectPunct text) c fun run _ => ∃ t, run = [t] ∧ t.isPunct text = true := by
  refine bind (eatPunct text) ?_
  rintro _ _ rest - (⟨rfl, t, rfl, ht⟩ | ⟨rfl, rfl, -⟩)
  · exact pure ⟨t, rfl, ht⟩
  · exact .expected _

theorem expectWord (word : String) :
    Takes (Reader.expectWord word) c fun run _ => ∃ t, run = [t] ∧ t.isIdent word = true := by
  refine bind (eatWord word) ?_
  rintro _ _ rest - (⟨rfl, t, rfl, ht⟩ | ⟨rfl, rfl, -⟩)
  · exact pure ⟨t, rfl, ht⟩
  · exact .expected _

theorem expectIdent :
    Takes Reader.expectIdent c fun run word => ∃ t, run = [t] ∧ t.ident? = some word := by
  refine .look rfl ?_
  split
  case h_1 word hword =>
    have hskip : Takes Reader.skip c fun run _ => ∃ t, run = [t] ∧ t.ident? = some word := by
      intro hend
      refine skip.mono (fun run rest _ _ hrun => ?_) hend
      cases hc : c.ahead with
      | nil =>
        -- The end of the file is no word.
        have hkind : c.last.kind = .eof := by simpa [Token.isEof] using hend
        rw [Cursor.current, hc, List.headD_nil, Token.ident?, hkind] at hword
        cases hword
      | cons t ts =>
        rw [Cursor.current, hc, List.headD_cons] at hword
        rw [hc] at hrun
        exact ⟨t, hrun, hword⟩
    refine bind hskip ?_
    rintro _ _ rest - ⟨t, rfl, ht⟩
    exact pure ⟨t, rfl, ht⟩
  case h_2 => exact .expected _

theorem takeWords (test : String → Bool) :
    Takes (Reader.takeWords test) c fun run words =>
      words = run.map Token.text ∧ ∀ t ∈ run, t.ident?.any test = true := by
  refine .look rfl (bind (take _) ?_)
  rintro _ run rest - ⟨rfl, hrun⟩
  refine pure ?_
  rw [List.append_nil]
  refine ⟨rfl, fun t ht => ?_⟩
  rw [hrun, ← List.prefix_iff_eq_take.mp (List.takeWhile_prefix _)] at ht
  have htest := List.mem_takeWhile_imp ht
  exact htest

theorem takeUntil (angles : Bool) (stop : Token → Bool) :
    Takes (Reader.takeUntil angles stop) c fun run ts =>
      ts = run ∧ ∃ t rest, c.ahead = run ++ t :: rest ∧ stop t = true := by
  refine .look rfl ?_
  split
  case h_1 n hn =>
    refine (take n).mono ?_
    rintro run rest ts - ⟨rfl, rfl⟩
    exact ⟨rfl, Lookahead.exists_of_countUntil hn⟩
  case h_2 => exact .look rfl (.failAt _ _)
  case h_3 => exact .failAt _ _

theorem takeGroup? :
    Takes Reader.takeGroup? c fun run found =>
      (found = some run ∧ ∃ group, Lookahead.skipGroup c.ahead = some group ∧ run = group.read) ∨
        (found = none ∧ run = []) := by
  refine .look rfl ?_
  split
  case h_1 group hgroup =>
    refine bind (take _) ?_
    rintro run _ rest - ⟨rfl, hrun⟩
    have hread : run = group.read := by
      rw [hrun]
      exact (List.prefix_iff_eq_take.mp ⟨group.rest, group.read_append_rest⟩).symm
    refine pure (.inl ?_)
    rw [List.append_nil]
    exact ⟨rfl, group, hgroup, hread⟩
  case h_2 => exact pure (.inr ⟨rfl, rfl⟩)

end Takes

/-! ### Following a run -/

namespace Lays

variable {origin c : Cursor} {p : Reader α} {f : α → Reader β} {T : List Token → α → Prop}
  {Q : List Leaf → List Comment → α → Cursor → Prop}
  {R : List Leaf → List Comment → β → Cursor → Prop}

/-- A reader that takes tokens passes their leaves. -/
theorem of_takes (h : Takes p c T)
    (hQ : ∀ run rest a, c.ahead = run ++ rest → T run a →
      Q (Leaf.ofTokens run) [] a (c.advance run.length)) : Lays origin p c Q := by
  refine h.lays.mono ?_
  rintro _ _ a _ - ⟨run, rest, hrest, rfl, rfl, rfl, hT⟩
  exact hQ run rest a hrest hT

/-- Tokens are taken first. -/
theorem bind_takes (hp : Takes p c T)
    (hf : ∀ a run rest, c.ahead = run ++ rest → T run a →
      Lays origin (f a) (c.advance run.length)
        fun xs ks b c' => R (Leaf.ofTokens run ++ xs) ks b c') :
    Lays origin (p >>= f) c R := by
  refine bind hp.lays ?_
  rintro a _ _ _ - ⟨run, rest, hrest, rfl, rfl, rfl, hT⟩
  exact hf a run rest hrest hT

/-- At first no token is taken. -/
theorem start (h : Lays origin p (c.advance ([] : List Token).length)
    fun xs ks a c' => Q (Leaf.ofTokens [] ++ xs) ks a c') : Lays origin p c Q :=
  h

/-- More tokens are taken after those of a run, and what is to be shown is about all of them. -/
theorem bind_run {run rest : List Token} (hrest : c.ahead = run ++ rest)
    (hp : Takes p (c.advance run.length) T)
    (hf : ∀ a run' rest', c.ahead = run ++ run' ++ rest' → T run' a →
      Lays origin (f a) (c.advance (run ++ run').length)
        fun xs ks b c' => R (Leaf.ofTokens (run ++ run') ++ xs) ks b c') :
    Lays origin (p >>= f) (c.advance run.length)
      fun xs ks b c' => R (Leaf.ofTokens run ++ xs) ks b c' := by
  refine bind_takes hp fun a run' rest' hrest' hT => ?_
  have hahead : c.ahead = run ++ run' ++ rest' := by
    rw [Cursor.ahead_advance_length hrest] at hrest'
    rw [hrest, hrest', List.append_assoc]
  have hnext := hf a run' rest' hahead hT
  rw [List.length_append, ← Cursor.advance_advance, Leaf.ofTokens_append] at hnext
  refine hnext.mono fun xs ks b c' _ hR => ?_
  rw [← List.append_assoc]
  exact hR

/-- More tokens are taken in one of two ways, and then the readers go on alike. -/
theorem ite_bind_run {b : Prop} [Decidable b] {q : Reader α} {run rest : List Token}
    (hrest : c.ahead = run ++ rest) (hp : b → Takes p (c.advance run.length) T)
    (hq : ¬b → Takes q (c.advance run.length) T)
    (hf : ∀ a run' rest', c.ahead = run ++ run' ++ rest' → T run' a →
      Lays origin (f a) (c.advance (run ++ run').length)
        fun xs ks b c' => R (Leaf.ofTokens (run ++ run') ++ xs) ks b c') :
    Lays origin (if b then p >>= f else q >>= f) (c.advance run.length)
      fun xs ks b c' => R (Leaf.ofTokens run ++ xs) ks b c' := by
  by_cases hb : b
  · rw [if_pos hb]
    exact bind_run hrest (hp hb) hf
  · rw [if_neg hb]
    exact bind_run hrest (hq hb) hf

end Lays

end Reader

end ClassSugar
