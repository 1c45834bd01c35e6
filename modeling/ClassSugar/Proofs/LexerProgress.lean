import ClassSugar.Proofs.LexedTokens

/-!
# The lexer always ends

A lexer reads one token after the other. A token that is not the end of the source has a text, so each
call of `Scanner.next` that does not end the reading moves forward (`Scanner.before_of_next`). Hence
the calls come to an end on every source, after one more than it has characters at most
(`Scanner.exists_ends`).

Within a call the scanning of a literal has to end too. The machine that scans it has less to do after
every step, and the calls for literals and holes that are active at once are entered one behind the
other. There is one exception to that: a literal with which a hole starts is entered where the hole
was entered. It does no harm, because the literal reads at least its quotes before anything else is
entered.
-/

namespace ClassSugar.Token

open ClassSugar.Text

/-! ### One call for a token -/

namespace Scanner

/-- One scanner has read something that the other one has not. -/
def Before (s s' : Scanner) : Prop :=
  ∃ cs, cs ≠ [] ∧ s.Passes cs s'

namespace Before

variable {s s' : Scanner}

theorem length_lt (h : s.Before s') : s'.rest.length < s.rest.length := by
  obtain ⟨cs, hcs, hpasses⟩ := h
  have hpos := List.length_pos_iff.mpr hcs
  rw [hpasses.rest, List.length_append]
  omega

theorem offset_lt (h : s.Before s') : s.place.offset < s'.place.offset := by
  obtain ⟨cs, hcs, hpasses⟩ := h
  exact hpasses.offset_lt hcs

end Before

/-- **The lexer goes forward**, if it has not come to the end. -/
theorem before_of_next {base : UInt32} {s s' : Scanner} {t : Token}
    (h : s.next base = .ok (t, s')) (ht : t.isEof = false) : s.Before s' := by
  have hgoes := goes_nextFrom base [] [] s
  rw [← next, h] at hgoes
  obtain ⟨cs, hcs, hsolid⟩ := hgoes
  exact ⟨cs, hsolid ht, hcs⟩

/-- Tokens are read until the end of the source or something that is no token: after so many calls,
and with this result. -/
inductive Ends (base : UInt32) : Scanner → Nat → Except Halt (List Token) → Prop where
  | halt {s : Scanner} {halt : Halt} (h : s.next base = .error halt) : Ends base s 1 (.error halt)
  | eof {s s' : Scanner} {t : Token} (h : s.next base = .ok (t, s')) (ht : t.isEof = true) :
      Ends base s 1 (.ok [t])
  | token {s s' : Scanner} {t : Token} {n : Nat} {out : Except Halt (List Token)}
      (h : s.next base = .ok (t, s')) (ht : t.isEof = false) (hrest : Ends base s' n out) :
      Ends base s (n + 1) (out.map (t :: ·))

/-- **The calls for tokens come to an end.** -/
theorem exists_ends (base : UInt32) (s : Scanner) :
    ∃ n ≤ s.rest.length + 1, Ends base s n (lexFrom base s) := by
  fun_induction lexFrom base s with
  | case1 s halt hnext => exact ⟨1, by omega, .halt hnext⟩
  | case2 s t s' hnext ht => exact ⟨1, by omega, .eof hnext ht⟩
  | case3 s t s' hnext ht ih =>
    -- The rest is shorter, so it takes fewer calls.
    have hsolid : t.isEof = false := Bool.eq_false_iff.mpr ht
    have hlt := (before_of_next hnext hsolid).length_lt
    obtain ⟨n, hn, hends⟩ := ih
    exact ⟨n + 1, by omega, .token hnext hsolid hends⟩

end Scanner

/-! ### What a run of the lexer ends with -/

/-- A text in which a line or a column is too large has a first place where it is. -/
theorem exists_not_fits {p : Place} {cs : List Char} (h : p.fitsAll cs = false) :
    ∃ before, before <+: cs ∧ (p.advance before).fits = false := by
  induction cs generalizing p with
  | nil => exact ⟨[], List.nil_prefix, h⟩
  | cons c cs ih =>
    rcases Bool.and_eq_false_iff.mp h with hhere | hlater
    · exact ⟨[], List.nil_prefix, hhere⟩
    · obtain ⟨before, hbefore, hfits⟩ := ih hlater
      exact ⟨c :: before, (List.cons_prefix_cons).mpr ⟨rfl, hbefore⟩, hfits⟩

/-- The tokens of a source are what the calls end with, and so is what is wrong with it; unless a line
or a column somewhere in the source is not a number of 32 bits. -/
theorem lex_eq_or_overflow (source : String) (base : UInt32) :
    lex source base = (lexFrom base (.start source.toList)).mapError
        (fun halt => .error (halt.locate base)) ∨
      lex source base = .error .overflow ∧
        ∃ before, before <+: source.toList ∧ ((Place.start 0).advance before).fits = false := by
  unfold lex
  cases hlex : lexFrom base (.start source.toList) with
  | ok ts =>
    cases hfits : (Place.start 0).fitsAll source.toList with
    | true => exact .inl rfl
    | false => exact .inr ⟨rfl, exists_not_fits hfits⟩
  | error halt =>
    dsimp only
    cases hfits : (Place.start 0).fitsAll halt.stop.read.reverse with
    | true => exact .inl rfl
    | false =>
      obtain ⟨before, hbefore, hnot⟩ := exists_not_fits hfits
      rw [(from_of_lexFrom hlex).before_eq] at hbefore
      refine .inr ⟨rfl, before, hbefore.trans ?_, hnot⟩
      cases halt.fault <;> exact List.take_prefix _ _

/-! ### Calls for literals and holes -/

namespace Scan

/-- The calls that are active, the innermost first, and where each of them was entered. -/
def calls : Scan → List (Call × Nat)
  | .running inner _ stack => (inner :: stack).map fun a => (a.call, a.entry.place.offset)
  | _ => []

/-- One call is entered behind another one, or where it was if it is a literal and the other one a
hole. -/
def EnteredBehind (inner outer : Call × Nat) : Prop :=
  outer.2 ≤ inner.2 ∧ (outer.2 = inner.2 → inner.1.isHole = false ∧ outer.1.isHole = true)

theorem Nested.pairwise_calls {s₀ : Scanner} {x : Scan} (h : x.Nested s₀) :
    x.calls.Pairwise EnteredBehind := by
  cases x with
  | running inner s stack => exact List.pairwise_map.mpr h.1
  | done s => exact List.Pairwise.nil
  | failed left => exact List.Pairwise.nil

end Scan

/-- An interpolated literal whose hole starts with a literal. -/
def nestedLiterals : String :=
  "$\"\x7b\"a\"\x7d\""

end ClassSugar.Token
