import ClassSugar.Proofs.RecutPieces

/-!
# Verbatim literals as tokens

In a verbatim literal every quote of its text is written twice. So the literal of a text that
starts with a quote starts with three quotes or more, and three quotes open a raw literal, `@` or
not. It is then read up to the next run of as many quotes, wherever that is (`reads_rawRest_iff`).

`verbatim_literal_cut_iff` says for which texts the literal is cut off as one token in spite of
this: those that end with as many quotes as they start with, and have no longer run behind these.
-/

namespace ClassSugar.Token

open ClassSugar.Text ClassSugar.Renaming

/-! ### Doubled quotes -/

/-- The text with every quote written twice. -/
def doubled (s : List Char) : List Char :=
  s.flatMap fun c => if c = '"' then ['"', '"'] else [c]

@[simp] theorem doubled_nil : doubled [] = [] := rfl

@[simp] theorem doubled_quote (s : List Char) : doubled ('"' :: s) = '"' :: '"' :: doubled s := rfl

theorem doubled_cons {c : Char} (hc : c ≠ '"') (s : List Char) :
    doubled (c :: s) = c :: doubled s := by
  rw [doubled, List.flatMap_cons, if_neg hc]
  rfl

theorem doubled_append (s t : List Char) : doubled (s ++ t) = doubled s ++ doubled t :=
  List.flatMap_append

theorem doubled_replicate (n : Nat) :
    doubled (List.replicate n '"') = List.replicate (2 * n) '"' := by
  induction n with
  | zero => rfl
  | succ n ih => rw [List.replicate_succ, doubled_quote, ih]; rfl

theorem doubled_reverse (s : List Char) : doubled s.reverse = (doubled s).reverse := by
  induction s with
  | nil => rfl
  | cons c s ih =>
    rw [List.reverse_cons, doubled_append, ih]
    by_cases hc : c = '"'
    · subst hc
      simp
    · rw [doubled_cons hc, doubled_cons hc, List.reverse_cons, doubled_nil]

theorem head?_doubled (s : List Char) : (doubled s).head? = s.head? := by
  cases s with
  | nil => rfl
  | cons c s =>
    by_cases hc : c = '"'
    · rw [hc]
      rfl
    · rw [doubled_cons hc]
      rfl

/-- A verbatim literal is closed by the quote after its text. -/
theorem literalBody_doubled (s : List Char) : LiteralBody '"' true (doubled s ++ ['"']) := by
  induction s with
  | nil => exact .close
  | cons c s ih =>
    by_cases hc : c = '"'
    · rw [hc]
      exact .quotes rfl ih
    · rw [doubled_cons hc]
      exact .plain hc nofun ih

/-! A run of quotes in the doubled text comes from one of half its length, rounded up. -/

theorem replicate_prefix_doubled_iff (m : Nat) (s : List Char) :
    List.replicate m '"' <+: doubled s ↔ List.replicate ((m + 1) / 2) '"' <+: s := by
  have hcons : ∀ (m n : Nat), (∀ s, List.replicate m '"' <+: '"' :: doubled s ↔
      List.replicate n '"' <+: s) → ∀ s,
      List.replicate (m + 1) '"' <+: doubled s ↔ List.replicate (n + 1) '"' <+: s := by
    intro m n htail s
    rw [List.replicate_succ, List.replicate_succ]
    cases s with
    | nil => simp
    | cons c s =>
      by_cases hc : c = '"'
      · rw [hc, doubled_quote, List.cons_prefix_cons, List.cons_prefix_cons, htail]
      · rw [doubled_cons hc, List.cons_prefix_cons, List.cons_prefix_cons]
        simp [Ne.symm hc]
  induction m using Nat.twoStepInduction generalizing s with
  | zero => simp
  | one => exact hcons 0 0 (by simp) s
  | more m ih _ =>
    rw [show (m + 2 + 1) / 2 = (m + 1) / 2 + 1 by omega]
    refine hcons (m + 1) _ (fun s => ?_) s
    rw [List.replicate_succ, List.cons_prefix_cons]
    exact (and_iff_right rfl).trans (ih s)

theorem replicate_suffix_doubled_iff (m : Nat) (s : List Char) :
    List.replicate m '"' <:+ doubled s ↔ List.replicate ((m + 1) / 2) '"' <:+ s := by
  rw [← List.reverse_prefix, ← doubled_reverse, List.reverse_replicate,
    replicate_prefix_doubled_iff, ← List.reverse_prefix, List.reverse_replicate]

theorem replicate_infix_doubled_iff (m : Nat) (s : List Char) :
    List.replicate m '"' <:+: doubled s ↔ List.replicate ((m + 1) / 2) '"' <:+: s := by
  induction s with
  | nil =>
    rw [doubled_nil, List.infix_nil, List.infix_nil, List.replicate_eq_nil_iff,
      List.replicate_eq_nil_iff]
    omega
  | cons c s ih =>
    by_cases hc : c = '"'
    · subst hc
      -- A run that starts at the second quote also starts at the first.
      have hearlier : List.replicate m '"' <+: '"' :: doubled s →
          List.replicate m '"' <+: '"' :: '"' :: doubled s := fun h =>
        List.IsPrefix.trans ⟨['"'], List.replicate_succ'.symm⟩
          (List.replicate_succ ▸ List.cons_prefix_cons.mpr ⟨rfl, h⟩)
      rw [List.infix_cons_iff, ← replicate_prefix_doubled_iff, ← ih, doubled_quote,
        List.infix_cons_iff, List.infix_cons_iff, ← or_assoc, or_iff_left_of_imp hearlier]
    · rw [List.infix_cons_iff, ← replicate_prefix_doubled_iff, ← ih, doubled_cons hc,
        List.infix_cons_iff]

/-! ### Verbatim literals -/

/-- The verbatim literal of a text. -/
def verbatimLiteral (s : List Char) : List Char :=
  '@' :: '"' :: (doubled s ++ ['"'])

/-- The number of quotes at the start of a text. -/
def leadingQuotes (s : List Char) : Nat :=
  (s.takeWhile (· == '"')).length

theorem doubled_eq (s : List Char) :
    doubled s = List.replicate (2 * leadingQuotes s) '"' ++ doubled (s.dropWhile (· == '"')) := by
  rw [← doubled_replicate, ← doubled_append, leadingQuotes, ← takeWhile_quote_eq,
    List.takeWhile_append_dropWhile]

/-- The quotes of the literal before the first other character of its text. -/
theorem quotes_doubled_append {s : List Char} (hs : s.dropWhile (· == '"') ≠ []) (r : List Char) :
    (doubled s ++ r).takeWhile (· == '"') = List.replicate (2 * leadingQuotes s) '"' ∧
      (doubled s ++ r).dropWhile (· == '"') = doubled (s.dropWhile (· == '"')) ++ r := by
  have hquotes : ∀ c ∈ List.replicate (2 * leadingQuotes s) '"', (c == '"') = true :=
    fun c hc => beq_iff_eq.mpr (List.eq_of_mem_replicate hc)
  have hend : ∀ c, (doubled (s.dropWhile (· == '"')) ++ r).head? = some c → (c == '"') = false := by
    intro c hc
    refine head_dropWhile_fails (· == '"') s c ?_
    rw [← head?_doubled, ← hc, List.head?_append_of_ne_nil]
    rwa [Ne, ← List.head?_eq_none_iff, head?_doubled, List.head?_eq_none_iff]
  rw [doubled_eq s, List.append_assoc]
  exact ⟨takeWhile_append_of_fails hquotes hend, dropWhile_append_of_fails hquotes hend⟩

/-- The quotes of the literal of a text of quotes. -/
theorem quotes_doubled_append_quote {s r : List Char} (hs : s.dropWhile (· == '"') = [])
    (hr : r.head? ≠ some '"') :
    (doubled s ++ '"' :: r).takeWhile (· == '"') =
        List.replicate (2 * leadingQuotes s + 1) '"' ∧
      (doubled s ++ '"' :: r).dropWhile (· == '"') = r := by
  have hquotes : ∀ c ∈ List.replicate (2 * leadingQuotes s + 1) '"', (c == '"') = true :=
    fun c hc => beq_iff_eq.mpr (List.eq_of_mem_replicate hc)
  have hend : ∀ c, r.head? = some c → (c == '"') = false := by
    rintro c hc
    exact beq_eq_false_iff_ne.mpr fun heq => hr (heq ▸ hc)
  rw [doubled_eq s, hs, doubled_nil, List.append_nil, List.append_cons, ← List.replicate_succ']
  exact ⟨takeWhile_append_of_fails hquotes hend, dropWhile_append_of_fails hquotes hend⟩

/-- A string literal is cut off as a token where it is read as a string. -/
theorem isCut_str_iff {lineStart : Bool} {c : Char} {a b : List Char} (hblank : isBlank c = false)
    (hcomment : Piece.comment? lineStart c (a ++ b) = none) :
    IsCut lineStart ⟨.token .str, c :: a⟩ b ↔ ReadsString (c :: (a ++ b)) (c :: a) b := by
  constructor
  · rintro ⟨c', r, t, hcs, hnext, hread, hrest⟩
    obtain ⟨rfl, rfl⟩ := List.cons.inj hcs
    cases Piece.nextAt_of_next hnext with
    | comment _ hfound => exact absurd (hcomment.symm.trans hfound) nofun
    | token _ _ htoken =>
      cases htoken with
      | string ho hclose => exact ⟨_, ho, t, hclose, hread, hrest⟩
  · rintro ⟨o, ho, t, hclose, hread, hrest⟩
    exact isCut_token hblank hcomment (.string ho hclose) hread hrest

theorem opens_verbatimLiteral (s r : List Char) :
    Opens (verbatimLiteral s ++ r) ['@'] (doubled s ++ '"' :: r) where
  spell := by rw [verbatimLiteral, List.append_cons _ '"' r]; rfl
  areMarks c hc := by rw [List.mem_singleton.mp hc]; rfl
  areOpen := rfl

theorem isCut_verbatimLiteral_iff {lineStart : Bool} {s r : List Char} :
    IsCut lineStart ⟨.token .str, verbatimLiteral s⟩ r ↔
      ReadsAfter (verbatimLiteral s ++ r) ['@'] (doubled s ++ '"' :: r) (verbatimLiteral s) r :=
  (isCut_str_iff rfl (comment?_eq_none_of_ne (by decide) (by decide))).trans
    (opens_verbatimLiteral s r).readsString_iff

/-- A text that does not start with a quote is not taken for a raw literal. -/
theorem readsAfter_of_leadingQuotes_eq_zero {s r : List Char} (hs : leadingQuotes s = 0)
    (hr : r.head? ≠ some '"') :
    ReadsAfter (verbatimLiteral s ++ r) ['@'] (doubled s ++ '"' :: r) (verbatimLiteral s) r := by
  have hfew : quotesBefore (doubled s ++ '"' :: r) < 3 := by
    rw [quotesBefore]
    by_cases hu : s.dropWhile (· == '"') = []
    · rw [(quotes_doubled_append_quote hu hr).1, List.length_replicate, hs]
      decide
    · rw [(quotes_doubled_append hu _).1, List.length_replicate, hs]
      decide
  rw [ReadsAfter, if_neg (Nat.not_le.mpr hfew)]
  refine ⟨doubled s ++ ['"'], rfl, ?_⟩
  exact reads_quotedRest_iff.mpr ⟨List.append_cons .., literalBody_doubled s, fun _ => hr⟩

theorem readsAfter_iff_of_leadingQuotes_pos {s r : List Char} (hs : 0 < leadingQuotes s)
    (hr : r.head? ≠ some '"') :
    ReadsAfter (verbatimLiteral s ++ r) ['@'] (doubled s ++ '"' :: r) (verbatimLiteral s) r ↔
      List.replicate (leadingQuotes s) '"' <:+ s.dropWhile (· == '"') ∧
        ¬List.replicate (leadingQuotes s + 1) '"' <:+: s.dropWhile (· == '"') := by
  rw [ReadsAfter, quotesBefore]
  by_cases hu : s.dropWhile (· == '"') = []
  · -- The fence takes the closing quote too, and the literal would go on into `r`.
    obtain ⟨htake, hdrop⟩ := quotes_doubled_append_quote hu hr
    rw [htake, hdrop, List.length_replicate, if_pos (by omega), hu]
    refine iff_of_false ?_ fun h => ?_
    · rintro ⟨a, ha, hraw⟩
      have hlength := congrArg List.length ha
      simp only [verbatimLiteral, doubled_eq s, hu, doubled_nil, List.append_nil, List.cons_append,
        List.nil_append, List.length_cons, List.length_append, List.length_replicate,
        List.length_nil] at hlength
      exact hraw.ne_nil (List.eq_nil_of_length_eq_zero (by omega))
    · exact absurd ((List.replicate_eq_nil_iff _).mp (List.suffix_nil.mp h.1)) (Nat.ne_of_gt hs)
  · -- The fence has one quote more than the doubled ones, so the closing quote completes it.
    obtain ⟨htake, hdrop⟩ := quotes_doubled_append hu ('"' :: r)
    have hliteral : ∀ a, verbatimLiteral s =
        ['@'] ++ '"' :: (List.replicate (2 * leadingQuotes s) '"' ++ a) ↔
          a = doubled (s.dropWhile (· == '"')) ++ ['"'] := by
      intro a
      rw [verbatimLiteral, doubled_eq s, List.append_assoc]
      simp [eq_comm]
    rw [htake, hdrop, List.length_replicate, if_pos (by omega), Nat.add_comm 1]
    simp only [hliteral, exists_eq_left]
    rw [reads_rawRest_iff (Nat.succ_pos _), and_iff_right (List.append_cons ..),
      List.dropLast_concat, replicate_infix_doubled_iff, List.replicate_succ',
      List.suffix_append_self_iff, replicate_suffix_doubled_iff,
      show (2 * leadingQuotes s + 1) / 2 = leadingQuotes s by omega,
      show (2 * leadingQuotes s + 1 + 1) / 2 = leadingQuotes s + 1 by omega]

/-- **Verbatim literals are tokens**, with one exception. The literal of a text that starts with
quotes is read as a raw literal, so it is a token only if the text ends with as many quotes as it
starts with and has no longer run of them behind its start. -/
theorem verbatim_literal_cut_iff (lineStart : Bool) {s r : List Char} (hr : r.head? ≠ some '"') :
    IsCut lineStart ⟨.token .str, verbatimLiteral s⟩ r ↔
      leadingQuotes s = 0 ∨
        List.replicate (leadingQuotes s) '"' <:+ s.dropWhile (· == '"') ∧
          ¬List.replicate (leadingQuotes s + 1) '"' <:+: s.dropWhile (· == '"') := by
  rw [isCut_verbatimLiteral_iff]
  rcases Nat.eq_zero_or_pos (leadingQuotes s) with hs | hs
  · exact iff_of_true (readsAfter_of_leadingQuotes_eq_zero hs hr) (.inl hs)
  · rw [readsAfter_iff_of_leadingQuotes_pos hs hr, or_iff_right (Nat.ne_of_gt hs)]

/-- The literal of one quote is no token: four quotes open a raw literal that nothing closes. The
literal of an `a` between two quotes is one. -/
theorem verbatim_literal_cut_iff_quotes :
    ¬IsCut true ⟨.token .str, verbatimLiteral ['"']⟩ [] ∧
      IsCut true ⟨.token .str, verbatimLiteral ['"', 'a', '"']⟩ [';'] :=
  ⟨fun h => absurd ((verbatim_literal_cut_iff true (by decide)).mp h) (by decide),
    (verbatim_literal_cut_iff true (by decide)).mpr (by decide)⟩

end ClassSugar.Token
