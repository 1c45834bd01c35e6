import ClassSugar.Grammar.Reader
import ClassSugar.Proofs.Layout
import Mathlib.Data.List.Forall2

/-!
# What a reader passes

A reader that takes comments changes the tokens ahead: the comments are off their token for good,
even if the reader fails and its tokens are given back. So a cursor is compared with a later one by
two relations:

* `Cursor.Moves`: tokens were taken, and some of all tokens may have lost their comments. This holds
  between the two cursors of any run of a reader, failed or not.
* `Cursor.Passes`: the leaves ahead of the first cursor are those that were passed and then those
  ahead of the second, but for some comments that were dropped.

`Reader.Lays p c Q` says that a reader passes leaves, and `Q` holds of them, of the comments that
were dropped on the way, of the value and of the cursor after it. There is one rule for each way to
put readers together.
-/

namespace ClassSugar

/-! ### Tokens without comments -/

/-- The second token is the first, perhaps without its comments. -/
def Token.Bared (t t' : Token) : Prop :=
  t' = t ∨ t' = t.bare

namespace Token

@[simp] theorem bare_bare (t : Token) : t.bare.bare = t.bare := rfl

@[simp] theorem bare_comp_bare : bare ∘ bare = bare := rfl

theorem Bared.refl (t : Token) : Bared t t :=
  .inl rfl

theorem Bared.trans {t t' t'' : Token} (h : Bared t t') (h' : Bared t' t'') : Bared t t'' := by
  rcases h with rfl | rfl
  · exact h'
  · exact .inr (h'.elim id id)

theorem Bared.bare_eq {t t' : Token} (h : Bared t t') : t'.bare = t.bare := by
  rcases h with rfl | rfl <;> rfl

theorem forall₂_bared_refl (ts : List Token) : List.Forall₂ Bared ts ts :=
  List.forall₂_same.mpr fun t _ => .refl t

theorem forall₂_bared_trans {ts ts' ts'' : List Token} (h : List.Forall₂ Bared ts ts')
    (h' : List.Forall₂ Bared ts' ts'') : List.Forall₂ Bared ts ts'' := by
  induction h generalizing ts'' with
  | nil => exact h'
  | cons ht _ ih =>
    obtain ⟨t'', rest, ht', hrest, rfl⟩ := List.forall₂_cons_left_iff.mp h'
    exact .cons (ht.trans ht') (ih hrest)

theorem map_bare_eq_of_forall₂ {ts ts' : List Token} (h : List.Forall₂ Bared ts ts') :
    ts.map bare = ts'.map bare := by
  induction h with
  | nil => rfl
  | cons ht _ ih => rw [List.map_cons, List.map_cons, ih, ht.bare_eq]

theorem spanOf_map_bare (ts : List Token) : spanOf (ts.map bare) = spanOf ts := by
  rw [spanOf, spanOf, List.head?_map, List.getLast?_map]
  cases ts.head? <;> cases ts.getLast? <;> rfl

theorem spell_map_bare (ts : List Token) : spell (ts.map bare) = spell ts := by
  cases ts with
  | nil => rfl
  | cons t ts =>
    rw [List.map_cons, spell, spell, List.map_map]
    rfl

theorem joinAfter_map_bare (t : Token) (ts : List Token) :
    joinAfter t.bare (ts.map bare) = joinAfter t ts := by
  induction ts generalizing t with
  | nil => rfl
  | cons u ts ih =>
    rw [List.map_cons, joinAfter, joinAfter, ih]
    rfl

theorem join_map_bare (ts : List Token) : join (ts.map bare) = join ts := by
  cases ts with
  | nil => rfl
  | cons t ts =>
    rw [List.map_cons, join, join, joinAfter_map_bare]
    rfl

end Token

/-- The text of a run does not say which comments its tokens still carry. -/
theorem Verbatim.ofTokens_map_bare (ts : List Token) :
    Verbatim.ofTokens (ts.map Token.bare) = Verbatim.ofTokens ts := by
  rw [Verbatim.ofTokens, Verbatim.ofTokens, Token.spell_map_bare, Token.spanOf_map_bare,
    List.head?_map, Option.map_map, List.flatMap_map]
  rfl

theorem Verbatim.ofTokens_congr {ts ts' : List Token}
    (h : ts.map Token.bare = ts'.map Token.bare) :
    Verbatim.ofTokens ts = Verbatim.ofTokens ts' := by
  rw [← Verbatim.ofTokens_map_bare, h, Verbatim.ofTokens_map_bare]

theorem Token.spanOf_congr {ts ts' : List Token} (h : ts.map Token.bare = ts'.map Token.bare) :
    Token.spanOf ts = Token.spanOf ts' := by
  rw [← Token.spanOf_map_bare, h, Token.spanOf_map_bare]

/-! ### Leaves -/

namespace Leaf

@[simp] theorem ofTokens_nil : ofTokens [] = [] := rfl

@[simp] theorem ofTokens_cons (t : Token) (ts : List Token) :
    ofTokens (t :: ts) = t.leaves ++ ofTokens ts := rfl

@[simp] theorem ofTokens_append (ts ts' : List Token) :
    ofTokens (ts ++ ts') = ofTokens ts ++ ofTokens ts' :=
  List.flatMap_append

@[simp] theorem tokens_nil : tokens [] = [] := rfl

@[simp] theorem tokens_append (xs ys : List Leaf) : tokens (xs ++ ys) = tokens xs ++ tokens ys :=
  List.filterMap_append

@[simp] theorem tokens_cons_token (t : Token) (xs : List Leaf) :
    tokens (.token t :: xs) = t :: tokens xs := rfl

@[simp] theorem tokens_cons_comment (k : Comment) (xs : List Leaf) :
    tokens (.comment k :: xs) = tokens xs := rfl

@[simp] theorem tokens_map_comment (ks : List Comment) : tokens (ks.map .comment) = [] := by
  induction ks with
  | nil => rfl
  | cons k ks ih => exact ih

@[simp] theorem tokens_leaves (t : Token) : tokens t.leaves = [t.bare] := by
  rw [Token.leaves, tokens_append, tokens_map_comment]
  rfl

@[simp] theorem tokens_ofTokens (ts : List Token) : tokens (ofTokens ts) = ts.map Token.bare := by
  induction ts with
  | nil => rfl
  | cons t ts ih => rw [ofTokens_cons, tokens_append, tokens_leaves, ih]; rfl

end Leaf

/-- The second list of leaves is the first without some of its comments, all of them listed. -/
inductive Thins (ks : List Comment) : List Leaf → List Leaf → Prop where
  | nil : Thins ks [] []
  | cons (x : Leaf) {xs ys : List Leaf} (h : Thins ks xs ys) : Thins ks (x :: xs) (x :: ys)
  | drop {k : Comment} {xs ys : List Leaf} (hk : k ∈ ks) (h : Thins ks xs ys) :
      Thins ks (.comment k :: xs) ys

namespace Thins

variable {ks ks' : List Comment} {xs xs' ys ys' zs : List Leaf}

theorem refl (ks : List Comment) (xs : List Leaf) : Thins ks xs xs := by
  induction xs with
  | nil => exact .nil
  | cons x xs ih => exact ih.cons x

theorem mono (hks : ks ⊆ ks') (h : Thins ks xs ys) : Thins ks' xs ys := by
  induction h with
  | nil => exact .nil
  | cons x _ ih => exact ih.cons x
  | drop hk _ ih => exact ih.drop (hks hk)

theorem append (h : Thins ks xs ys) (h' : Thins ks xs' ys') : Thins ks (xs ++ xs') (ys ++ ys') := by
  induction h with
  | nil => exact h'
  | cons x _ ih => exact ih.cons x
  | drop hk _ ih => exact ih.drop hk

theorem trans (h : Thins ks xs ys) (h' : Thins ks ys zs) : Thins ks xs zs := by
  induction h generalizing zs with
  | nil => exact h'
  | cons x _ ih =>
    cases h' with
    | cons _ h' => exact (ih h').cons x
    | drop hk h' => exact (ih h').drop hk
  | drop hk _ ih => exact (ih h').drop hk

theorem comments (hks : ks' ⊆ ks) : Thins ks (ks'.map .comment) [] := by
  induction ks' with
  | nil => exact .nil
  | cons k ks' ih =>
    obtain ⟨hk, hks⟩ := List.cons_subset.mp hks
    exact (ih hks).drop hk

/-- No token is lost. -/
theorem tokens_eq (h : Thins ks xs ys) : Leaf.tokens xs = Leaf.tokens ys := by
  induction h with
  | nil => rfl
  | cons x _ ih => cases x <;> simp [ih]
  | drop _ _ ih => exact ih

theorem map_bare_eq {ts : List Token} {t : Token}
    (h : Thins ks (Leaf.ofTokens ts) (xs ++ [.token t])) :
    ts.map Token.bare = Leaf.tokens xs ++ [t] := by
  rw [← Leaf.tokens_ofTokens, h.tokens_eq, Leaf.tokens_append]
  rfl

/-- A comment is still there or among those listed. -/
theorem mem_or_mem {k : Comment} (h : Thins ks xs ys) (hk : Leaf.comment k ∈ xs) :
    Leaf.comment k ∈ ys ∨ k ∈ ks := by
  induction h with
  | nil => cases hk
  | cons x _ ih =>
    rcases List.mem_cons.mp hk with rfl | hk
    · exact .inl List.mem_cons_self
    · exact (ih hk).imp_left (List.mem_cons_of_mem x)
  | drop hmem _ ih =>
    rcases List.mem_cons.mp hk with heq | hk
    · cases heq
      exact .inr hmem
    · exact ih hk

end Thins

/-- The comments that stand on a token of the first list, and no longer on the same one of the
second. -/
def Token.dropped (ts ts' : List Token) : List Comment :=
  (ts.zip ts').flatMap fun (t, t') => if t'.leading = [] then t.leading else []

/-- Tokens without their comments have fewer leaves. -/
theorem Thins.of_forall₂ {ts ts' : List Token} (h : List.Forall₂ Token.Bared ts ts') :
    Thins (Token.dropped ts ts') (Leaf.ofTokens ts) (Leaf.ofTokens ts') := by
  induction h with
  | nil => exact .nil
  | @cons t t' ts ts' ht _ ih =>
    have hfirst : Thins (Token.dropped (t :: ts) (t' :: ts')) t.leaves t'.leaves := by
      rcases ht with rfl | rfl
      · exact .refl _ _
      · have hmem : t.leading ⊆ Token.dropped (t :: ts) (t.bare :: ts') :=
          List.subset_append_left t.leading _
        exact (Thins.comments hmem).append (.refl _ _)
    have hrest : Token.dropped ts ts' ⊆ Token.dropped (t :: ts) (t' :: ts') :=
      List.subset_append_right _ _
    exact hfirst.append (ih.mono hrest)

/-! ### Cursors -/

namespace Cursor

theorem advance_advance (c : Cursor) (m n : Nat) : (c.advance m).advance n = c.advance (m + n) := by
  simp only [advance, List.drop_drop, List.take_add, List.reverse_append, List.append_assoc]

/-- The tokens taken since a cursor are those in front of its own. -/
theorem since_position {c c' : Cursor} {run : List Token}
    (h : c'.behind = run.reverse ++ c.behind) : c'.since c.position = run := by
  rw [since, position, h, List.length_append, Nat.add_sub_cancel, List.take_left,
    List.reverse_reverse]

theorem behind_advance_length {c : Cursor} {run rest : List Token} (h : c.ahead = run ++ rest) :
    (c.advance run.length).behind = run.reverse ++ c.behind := by
  rw [advance, h, List.take_left]

theorem ahead_advance_length {c : Cursor} {run rest : List Token} (h : c.ahead = run ++ rest) :
    (c.advance run.length).ahead = rest := by
  rw [ahead_advance, h, List.drop_left]

/-- The tokens ahead and the end of the file. -/
def remaining (c : Cursor) : List Token :=
  c.ahead ++ [c.last]

/-- The leaves ahead, the end of the file among them. -/
def leaves (c : Cursor) : List Leaf :=
  Leaf.ofTokens c.remaining

/-- Tokens were taken, and any token may have lost its comments. -/
def Moves (c c' : Cursor) : Prop :=
  ∃ run, c'.behind = run.reverse ++ c.behind ∧
    List.Forall₂ Token.Bared c.ahead (run ++ c'.ahead) ∧ Token.Bared c.last c'.last

namespace Moves

variable {c c' c'' : Cursor}

theorem refl (c : Cursor) : c.Moves c :=
  ⟨[], rfl, Token.forall₂_bared_refl _, .refl _⟩

theorem trans (h : c.Moves c') (h' : c'.Moves c'') : c.Moves c'' := by
  obtain ⟨run, hbehind, hahead, hlast⟩ := h
  obtain ⟨run', hbehind', hahead', hlast'⟩ := h'
  refine ⟨run ++ run', ?_, ?_, hlast.trans hlast'⟩
  · rw [hbehind', hbehind, List.reverse_append, List.append_assoc]
  · rw [List.append_assoc]
    exact Token.forall₂_bared_trans hahead
      (List.rel_append (Token.forall₂_bared_refl run) hahead')

theorem advance {run rest : List Token} (h : c.ahead = run ++ rest) :
    c.Moves (c.advance run.length) := by
  refine ⟨run, behind_advance_length h, ?_, .refl _⟩
  rw [ahead_advance_length h, h]
  exact Token.forall₂_bared_refl _

theorem dropComments (c : Cursor) : c.Moves c.dropComments := by
  cases hc : c.ahead with
  | nil =>
    refine ⟨[], ?_, ?_, ?_⟩ <;> simp only [Cursor.dropComments, hc]
    · rfl
    · exact .nil
    · exact .inr rfl
  | cons t ts =>
    refine ⟨[], ?_, ?_, ?_⟩ <;> simp only [Cursor.dropComments, hc]
    · rfl
    · exact .cons (.inr rfl) (Token.forall₂_bared_refl ts)
    · exact .refl _

/-- Tokens that are given back may have lost their comments. -/
theorem rewind (h : c.Moves c') :
    (c'.rewind c.position).behind = c.behind ∧
      List.Forall₂ Token.Bared c.ahead (c'.rewind c.position).ahead ∧
      Token.Bared c.last (c'.rewind c.position).last := by
  obtain ⟨run, hbehind, hahead, hlast⟩ := h
  have hlength : c'.behind.length - c.position = run.length := by
    rw [position, hbehind, List.length_append, List.length_reverse, Nat.add_sub_cancel]
  have hdrop : c'.behind.drop run.length = c.behind := by
    rw [hbehind, ← List.length_reverse, List.drop_left]
  have htake : (c'.behind.take run.length).reverse = run := by
    rw [hbehind, ← List.length_reverse, List.take_left, List.reverse_reverse]
  simp only [Cursor.rewind, hlength, hdrop, htake]
  exact ⟨trivial, hahead, hlast⟩

theorem isEof_last (h : c.Moves c') : c'.last.isEof = c.last.isEof := by
  obtain ⟨-, -, -, hlast | hlast⟩ := h
  · rw [hlast]
  · rw [hlast]
    rfl

theorem remaining {run : List Token} (hahead : List.Forall₂ Token.Bared c.ahead (run ++ c'.ahead))
    (hlast : Token.Bared c.last c'.last) :
    List.Forall₂ Token.Bared c.remaining (run ++ c'.remaining) := by
  rw [Cursor.remaining, Cursor.remaining, ← List.append_assoc]
  exact List.rel_append hahead (.cons hlast .nil)

end Moves

/-- The leaves `xs` were passed, and the comments listed were dropped on the way. -/
structure Passes (c : Cursor) (xs : List Leaf) (ks : List Comment) (c' : Cursor) : Prop where
  moves : c.Moves c'
  thins : Thins ks c.leaves (xs ++ c'.leaves)

namespace Passes

variable {c c' c'' : Cursor} {xs xs' : List Leaf} {ks ks' : List Comment}

theorem refl (c : Cursor) : c.Passes [] [] c :=
  ⟨.refl c, .refl _ _⟩

theorem trans (h : c.Passes xs ks c') (h' : c'.Passes xs' ks' c'') :
    c.Passes (xs ++ xs') (ks ++ ks') c'' := by
  refine ⟨h.moves.trans h'.moves, ?_⟩
  have hfirst := h.thins.mono (List.subset_append_left ks ks')
  have hrest := h'.thins.mono (List.subset_append_right ks ks')
  rw [List.append_assoc]
  exact hfirst.trans ((Thins.refl _ xs).append hrest)

theorem advance {run rest : List Token} (h : c.ahead = run ++ rest) :
    c.Passes (Leaf.ofTokens run) [] (c.advance run.length) := by
  refine ⟨.advance h, ?_⟩
  have hleaves : c.leaves = Leaf.ofTokens run ++ (c.advance run.length).leaves := by
    rw [leaves, leaves, remaining, remaining, ahead_advance_length h, h, List.append_assoc,
      Leaf.ofTokens_append]
    rfl
  rw [hleaves]
  exact .refl _ _

theorem dropComments (c : Cursor) :
    c.Passes (c.current.leading.map .comment) [] c.dropComments := by
  refine ⟨.dropComments c, ?_⟩
  have hleaves : c.leaves = c.current.leading.map .comment ++ c.dropComments.leaves := by
    cases hc : c.ahead with
    | nil => simp [leaves, remaining, current, Cursor.dropComments, hc, Token.leaves, Token.bare]
    | cons t ts =>
      simp [leaves, remaining, current, Cursor.dropComments, hc, Token.leaves, Token.bare]
  rw [hleaves]
  exact .refl _ _

/-- The tokens that were taken are those that were passed. -/
theorem map_bare_since (h : c.Passes xs ks c') :
    (c'.since c.position).map Token.bare = Leaf.tokens xs := by
  obtain ⟨run, hbehind, hahead, hlast⟩ := h.moves
  have hall := Token.map_bare_eq_of_forall₂ (Moves.remaining hahead hlast)
  have htokens := h.thins.tokens_eq
  rw [leaves, leaves, Leaf.tokens_append, Leaf.tokens_ofTokens, Leaf.tokens_ofTokens, hall,
    List.map_append] at htokens
  rw [since_position hbehind]
  exact List.append_cancel_right htokens

theorem ofTokens_since (h : c.Passes xs ks c') :
    Verbatim.ofTokens (c'.since c.position) = Verbatim.ofTokens (Leaf.tokens xs) := by
  rw [← h.map_bare_since, Verbatim.ofTokens_map_bare]

theorem spanOf_since (h : c.Passes xs ks c') :
    Token.spanOf (c'.since c.position) = Token.spanOf (Leaf.tokens xs) := by
  rw [← h.map_bare_since, Token.spanOf_map_bare]

end Passes

end Cursor

/-! ### Readers -/

namespace Reader

variable {α β : Type}

theorem bind_apply (p : Reader α) (f : α → Reader β) (c : Cursor) :
    (p >>= f) c = match p c with
      | .ok a c' => f a c'
      | .error e c' => .error e c' := by
  change EStateM.bind p f c = _
  rw [EStateM.bind]
  cases p c <;> rfl

/-- What came of a reader that was started at a cursor. Leaves were passed, and `Q` holds of them,
of the comments dropped on the way, of the value and of the cursor after it; or the reader
failed. -/
def CameOf (c : Cursor) (Q : List Leaf → List Comment → α → Cursor → Prop) :
    EStateM.Result SyntaxError Cursor α → Prop
  | .ok a c' => ∃ xs ks, c.Passes xs ks c' ∧ Q xs ks a c'
  | .error _ c' => c.Moves c'

/-- The reader passes leaves of which `Q` holds, from a cursor that was reached from the origin. -/
def Lays (origin : Cursor) (p : Reader α) (c : Cursor)
    (Q : List Leaf → List Comment → α → Cursor → Prop) : Prop :=
  c.last.isEof = true → origin.Moves c → CameOf c Q (p c)

namespace Lays

variable {origin c : Cursor} {p : Reader α} {f : α → Reader β}
  {Q Q' : List Leaf → List Comment → α → Cursor → Prop}
  {R : List Leaf → List Comment → β → Cursor → Prop}

/-- The two outcomes of a reader. -/
theorem of_outcomes
    (hok : ∀ a c', c.last.isEof = true → origin.Moves c → p c = .ok a c' →
      ∃ xs ks, c.Passes xs ks c' ∧ Q xs ks a c')
    (herror : ∀ e c', c.last.isEof = true → origin.Moves c → p c = .error e c' → c.Moves c') :
    Lays origin p c Q := by
  intro hend horigin
  cases hp : p c with
  | ok a c' => exact hok a c' hend horigin hp
  | error e c' => exact herror e c' hend horigin hp

variable {a : α} {T : List Token → α → Prop}

theorem of_ok {c' : Cursor} (h : Lays origin p c Q) (hend : c.last.isEof = true)
    (horigin : origin.Moves c) (hrun : p c = .ok a c') :
    ∃ xs ks, c.Passes xs ks c' ∧ Q xs ks a c' := by
  have hp := h hend horigin
  rw [hrun] at hp
  exact hp

theorem of_error {e : SyntaxError} {c' : Cursor} (h : Lays origin p c Q)
    (hend : c.last.isEof = true) (horigin : origin.Moves c) (hrun : p c = .error e c') :
    c.Moves c' := by
  have hp := h hend horigin
  rw [hrun] at hp
  exact hp

theorem mono (h : Lays origin p c Q)
    (hQ : ∀ xs ks a c', c.Passes xs ks c' → Q xs ks a c' → Q' xs ks a c') :
    Lays origin p c Q' := by
  refine of_outcomes (fun a c' hend horigin hp => ?_) fun e c' hend horigin hp =>
    h.of_error hend horigin hp
  obtain ⟨xs, ks, hpass, ha⟩ := h.of_ok hend horigin hp
  exact ⟨xs, ks, hpass, hQ xs ks a c' hpass ha⟩

theorem pure (h : Q [] [] a c) : Lays origin (Pure.pure a) c Q :=
  fun _ _ => ⟨[], [], .refl c, h⟩

/-- **One reader after the other.** The leaves that they pass follow each other. -/
theorem bind (hp : Lays origin p c Q)
    (hf : ∀ a xs ks c', c.Passes xs ks c' → Q xs ks a c' →
      Lays origin (f a) c' fun xs' ks' b c'' => R (xs ++ xs') (ks ++ ks') b c'') :
    Lays origin (p >>= f) c R := by
  intro hend horigin
  rw [bind_apply]
  cases hfirst : p c with
  | error e c₁ => exact hp.of_error hend horigin hfirst
  | ok a c₁ =>
    obtain ⟨xs, ks, hpass, hQ⟩ := hp.of_ok hend horigin hfirst
    have hend₁ : c₁.last.isEof = true := hpass.moves.isEof_last.trans hend
    have hnext := hf a xs ks c₁ hpass hQ
    simp only
    cases hsecond : f a c₁ with
    | error e c₂ =>
      exact hpass.moves.trans (hnext.of_error hend₁ (horigin.trans hpass.moves) hsecond)
    | ok b c₂ =>
      obtain ⟨xs', ks', hpass', hR⟩ := hnext.of_ok hend₁ (horigin.trans hpass.moves) hsecond
      exact ⟨xs ++ xs', ks ++ ks', hpass.trans hpass', hR⟩

/-- A reader that only looks passes nothing. -/
theorem look (hp : p c = .ok a c) (h : Lays origin (f a) c R) :
    Lays origin (p >>= f) c R := by
  have hlook : Lays origin p c fun xs ks b c' => xs = [] ∧ ks = [] ∧ b = a ∧ c' = c := by
    intro _ _
    rw [hp]
    exact ⟨[], [], .refl c, rfl, rfl, rfl, rfl⟩
  refine bind hlook ?_
  rintro _ _ _ _ - ⟨rfl, rfl, rfl, rfl⟩
  exact h

theorem map {g : α → β} (hp : Lays origin p c fun xs ks a c' => R xs ks (g a) c') :
    Lays origin (g <$> p) c R := by
  rw [map_eq_pure_bind]
  refine bind hp fun a xs ks c' _ hR => pure ?_
  rw [List.append_nil, List.append_nil]
  exact hR

theorem ite {b : Prop} [Decidable b] {q : Reader α} (hp : b → Lays origin p c Q)
    (hq : ¬b → Lays origin q c Q) : Lays origin (if b then p else q) c Q := by
  split
  · exact hp ‹_›
  · exact hq ‹_›

theorem failAt (cause : SyntaxError.Cause) (span : Span) :
    Lays origin (Reader.failAt cause span : Reader α) c Q :=
  fun _ _ => .refl c

theorem expected (what : Expected) : Lays origin (Reader.expected what : Reader α) c Q :=
  look rfl (failAt _ _)

/-- The comments before the token ahead are taken first. -/
theorem bind_comments {f : List Verbatim → Reader β}
    (hf : Lays origin (f (c.current.leading.map Verbatim.ofComment)) c.dropComments
      fun xs ks b c' => R (c.current.leading.map .comment ++ xs) ks b c') :
    Lays origin (takeComments >>= f) c R := by
  have htake : Lays origin takeComments c fun xs ks texts c' =>
      xs = c.current.leading.map .comment ∧ ks = [] ∧
        texts = c.current.leading.map Verbatim.ofComment ∧ c' = c.dropComments :=
    fun _ _ => ⟨_, [], .dropComments c, rfl, rfl, rfl, rfl⟩
  refine bind htake ?_
  rintro _ _ _ _ - ⟨rfl, rfl, rfl, rfl⟩
  exact hf

/-- A reader is attempted first. It succeeds as it does by itself, or the cursor is back where it
was and some tokens may have lost their comments. -/
theorem bind_attempt {p : Reader (Option α)} {f : Option α → Reader β}
    {Q : List Leaf → List Comment → Option α → Cursor → Prop} (hp : Lays origin p c Q)
    (hsome : ∀ a xs ks c', c.Passes xs ks c' → Q xs ks (some a) c' →
      Lays origin (f (some a)) c' fun xs' ks' b c'' => R (xs ++ xs') (ks ++ ks') b c'')
    (hnone : ∀ c', attempt p c = .ok none c' → c'.behind = c.behind →
      List.Forall₂ Token.Bared c.ahead c'.ahead → Token.Bared c.last c'.last →
      c.last.isEof = true → origin.Moves c → CameOf c R (f none c')) :
    Lays origin (attempt p >>= f) c R := by
  intro hend horigin
  -- Both ways to fail end in the same place: at the cursor, moved back.
  have hback : ∀ c', attempt p c = .ok none (c'.rewind c.position) → c.Moves c' →
      CameOf c R ((attempt p >>= f) c) := by
    intro c' hattempt hmoves
    obtain ⟨hbehind, hahead, hlast⟩ := hmoves.rewind
    rw [bind_apply, hattempt]
    exact hnone _ hattempt hbehind hahead hlast hend horigin
  cases hrun : p c with
  | error e c₁ =>
    refine hback c₁ ?_ (hp.of_error hend horigin hrun)
    rw [attempt, hrun]
  | ok found c₁ =>
    obtain ⟨xs, ks, hpass, hQ⟩ := hp.of_ok hend horigin hrun
    cases found with
    | none =>
      refine hback c₁ ?_ hpass.moves
      rw [attempt, hrun]
    | some a =>
      have hfirst : Lays origin (attempt p) c fun xs' ks' b c' =>
          b = some a ∧ c.Passes xs' ks' c' ∧ Q xs' ks' (some a) c' := by
        intro _ _
        rw [attempt, hrun]
        exact ⟨xs, ks, hpass, rfl, hpass, hQ⟩
      refine bind hfirst ?_ hend horigin
      rintro _ xs' ks' c' - ⟨rfl, hpass', hQ'⟩
      exact hsome a xs' ks' c' hpass' hQ'

/-- **Repetition.** One round that goes on, and the rounds after it, make up all of them. -/
theorem rounds {round : Reader (List α × Bool)}
    {S T : Cursor → List Leaf → List Comment → List α → Cursor → Prop}
    (hstep : ∀ c xs ks found c₁ xs' ks' more c₂, S c xs ks found c₁ → T c₁ xs' ks' more c₂ →
      T c (xs ++ xs') (ks ++ ks') (found ++ more) c₂)
    (h : ∀ c, Lays origin round c fun xs ks found c' =>
      (found.2 = true ∧ S c xs ks found.1 c') ∨ (found.2 = false ∧ T c xs ks found.1 c'))
    (c : Cursor) : Lays origin (Reader.rounds round) c (T c) := by
  intro hend horigin
  fun_induction Reader.rounds round c with
  | case1 c e c₁ hround => exact (h c).of_error hend horigin hround
  | case2 c found c₁ hround =>
    obtain ⟨xs, ks, hpass, ⟨hgo, -⟩ | ⟨-, hT⟩⟩ := (h c).of_ok hend horigin hround
    · cases hgo
    · exact ⟨xs, ks, hpass, hT⟩
  | case3 c found c₁ hround hlt more c₂ hmore ih =>
    -- A round that goes on, and all the others.
    obtain ⟨xs, ks, hpass, ⟨-, hS⟩ | ⟨hstop, -⟩⟩ := (h c).of_ok hend horigin hround
    · have hrest := ih (hpass.moves.isEof_last.trans hend) (horigin.trans hpass.moves)
      rw [hmore] at hrest
      obtain ⟨xs', ks', hpass', hT⟩ := hrest
      exact ⟨_, _, hpass.trans hpass', hstep _ _ _ _ _ _ _ _ _ hS hT⟩
    · cases hstop
  | case4 c found c₁ hround hlt e c₂ hmore ih =>
    obtain ⟨xs, ks, hpass, -⟩ := (h c).of_ok hend horigin hround
    have hrest := ih (hpass.moves.isEof_last.trans hend) (horigin.trans hpass.moves)
    rw [hmore] at hrest
    exact hpass.moves.trans hrest
  | case5 c found c₁ hround hlt =>
    -- A round that goes on but passes no token is an error.
    obtain ⟨xs, ks, hpass, -⟩ := (h c).of_ok hend horigin hround
    exact hpass.moves

/-- **Recursion.** What is to be shown may be assumed of the recursive calls. -/
theorem nested {body : (β → Reader α) → β → Reader α} {P : Cursor → Prop}
    {Q : β → List Leaf → List Comment → α → Cursor → Prop}
    (h : ∀ self, (∀ b c, P c → Lays origin (self b) c (Q b)) →
      ∀ b c, P c → Lays origin (body self b) c (Q b)) (b : β) (c : Cursor) (hc : P c) :
    Lays origin (Reader.nested body b) c (Q b) := by
  -- The recursion goes on only while there are fewer tokens ahead.
  induction hn : c.ahead.length using Nat.strongRecOn generalizing b c with
  | ind n ih =>
    intro hend horigin
    rw [Reader.nested]
    refine h _ ?_ b c hc hend horigin
    intro b' c' hc' hend' horigin'
    dsimp only
    by_cases hlt : c'.ahead.length < c.ahead.length
    · rw [if_pos hlt]
      exact ih _ (hn ▸ hlt) b' c' hc' rfl hend' horigin'
    · rw [if_neg hlt]
      exact .refl c'

end Lays

end Reader

end ClassSugar
