import ClassSugar.Proofs.LosslessTokens
import ClassSugar.Proofs.PieceLocality

/-!
# How strings are written

A string that is neither interpolated nor raw is written as marks, a quote and a body
(`ClosesString`). Every string ends with a quote (`getLast?_of_readsString`).
-/

namespace ClassSugar

namespace Token

open ClassSugar.Text

/-- After `n` marks `@` and a quote, `body` is the rest of a string that is not raw, and `b` follows
it. -/
structure ClosesString (n : Nat) (body b : List Char) : Prop where
  areOpen : marksOpen (List.replicate n '@') = true
  isBody : LiteralBody '"' ((List.replicate n '@').contains '@') body
  next : (List.replicate n '@').contains '@' = true → b.head? ≠ some '"'
  few : quotesBefore (body ++ b) < 3

theorem ClosesString.opens {n : Nat} {body b : List Char} (h : ClosesString n body b) :
    Opens (List.replicate n '@' ++ '"' :: body ++ b) (List.replicate n '@') (body ++ b) where
  spell := by rw [List.append_assoc, List.cons_append]
  areMarks c hc := by
    rw [List.eq_of_mem_replicate hc]
    rfl
  areOpen := h.areOpen

theorem ClosesString.readsString {n : Nat} {body b : List Char} (h : ClosesString n body b) :
    ReadsString (List.replicate n '@' ++ '"' :: body ++ b) (List.replicate n '@' ++ '"' :: body)
      b := by
  have hplain : (List.replicate n '@').contains '$' = false := by
    simp [List.contains_eq_mem, List.mem_replicate]
  rw [h.opens.readsString_iff, ReadsAfter, if_neg (Nat.not_le.mpr h.few), hplain]
  exact ⟨body, rfl, reads_quotedRest_iff.mpr ⟨rfl, h.isBody, h.next⟩⟩

theorem takeWhile_quote_eq (r : List Char) :
    r.takeWhile (· == '"') = List.replicate (r.takeWhile (· == '"')).length '"' :=
  List.eq_replicate_of_mem fun _ hc =>
    beq_iff_eq.mp (List.mem_takeWhile_imp (p := (· == '"')) hc)

/-- How a string is written that is neither interpolated nor raw. -/
theorem exists_closesString {cs a b : List Char} (h : ReadsString cs a b)
    (hinterpolated : '$' ∉ a.takeWhile isMark)
    (hraw : ¬['"', '"', '"'] <+: a.dropWhile isMark) :
    ∃ n body, a = List.replicate n '@' ++ '"' :: body ∧ ClosesString n body b := by
  obtain ⟨marks, r, hopens⟩ : ∃ marks r, Opens cs marks r := by
    obtain ⟨o, ho, -⟩ := h
    exact Opens.of_of? ho
  have hquote : ∀ (s : List Char) c, ('"' :: s).head? = some c → isMark c = false := by
    rintro s _ ⟨⟩
    rfl
  have hafter := hopens.readsString_iff.mp h
  unfold ReadsAfter at hafter
  split at hafter
  case isTrue hthree =>
    -- A raw string starts with three quotes.
    obtain ⟨a₁, rfl, -⟩ := hafter
    rw [dropWhile_append_of_fails hopens.areMarks (hquote _)] at hraw
    unfold quotesBefore at hthree
    obtain ⟨k, hk⟩ : ∃ k, (r.takeWhile (· == '"')).length = k + 2 :=
      Nat.exists_eq_add_of_le' (by omega)
    rw [takeWhile_quote_eq, hk] at hraw
    exact absurd ⟨_, rfl⟩ hraw
  case isFalse hfew =>
    obtain ⟨body, rfl, hbody⟩ := hafter
    rw [takeWhile_append_of_fails hopens.areMarks (hquote _)] at hinterpolated
    have hmarks : marks = List.replicate marks.length '@' := by
      refine List.eq_replicate_of_mem fun c hc => ?_
      have hmark := hopens.areMarks c hc
      simp only [isMark, Bool.or_eq_true, beq_iff_eq] at hmark
      exact hmark.resolve_right fun heq => hinterpolated (heq ▸ hc)
    have hplain : marks.contains '$' = false := by
      simpa [List.contains_eq_mem] using hinterpolated
    rw [hplain] at hbody
    obtain ⟨hr, hliteral, hnext⟩ := reads_quotedRest_iff.mp hbody
    refine ⟨marks.length, body, by rw [← hmarks], ?_⟩
    rw [hr] at hfew
    exact ⟨hmarks ▸ hopens.areOpen, hmarks ▸ hliteral, hmarks ▸ hnext, Nat.not_le.mp hfew⟩

/-! ### How strings end -/

theorem getLast?_append_of_some {a b : List Char} {d : Char} (h : b.getLast? = some d) :
    (a ++ b).getLast? = some d := by
  rw [List.getLast?_append, h]
  rfl

/-- A string literal ends with a quote, whatever holes it has. -/
theorem getLast?_of_reads_quotedRest {start cs a b : List Char} {verbatim interpolated : Bool}
    (h : Reads (quotedRest start verbatim interpolated cs) a b) : a.getLast? = some '"' := by
  induction hn : cs.length using Nat.strong_induction_on generalizing cs a with
  | _ n ih =>
    cases quotedStep_iff.mp h with
    | close => rfl
    | @pair c d r a _ hr =>
      exact getLast?_append_of_some (a := [c, d]) (ih r.length (by grind) hr rfl)
    | @hole r a₁ a₂ _ _ h₁ h₂ =>
      -- The quote is the last character of what follows the hole.
      exact getLast?_append_of_some (a := '{' :: a₁)
        (ih _ (hn ▸ Nat.lt_succ_of_lt h₁.length_lt) h₂ rfl)
    | @plain c r a _ _ _ hr =>
      exact getLast?_append_of_some (a := [c]) (ih r.length (by grind) hr rfl)

theorem getLast?_of_readsString {cs a b : List Char} (h : ReadsString cs a b) :
    a.getLast? = some '"' := by
  obtain ⟨o, ho, -⟩ := id h
  obtain ⟨marks, r, hopens⟩ := Opens.of_of? ho
  have hafter := hopens.readsString_iff.mp h
  rw [ReadsAfter] at hafter
  split at hafter
  · obtain ⟨a₁, rfl, hraw⟩ := hafter
    have hpos : 0 < quotesBefore r := by unfold quotesBefore; omega
    obtain ⟨-, ⟨front, rfl⟩, -⟩ := (reads_rawRest_iff hpos).mp hraw
    have hfence : (List.replicate (quotesBefore r) '"').getLast? = some '"' := by
      rw [List.getLast?_replicate, if_neg hpos.ne']
    rw [← List.append_assoc, ← List.cons_append, ← List.append_assoc]
    exact getLast?_append_of_some hfence
  · obtain ⟨a₁, rfl, hquoted⟩ := hafter
    rw [List.append_cons]
    exact getLast?_append_of_some (getLast?_of_reads_quotedRest hquoted)

end Token

end ClassSugar
