import ClassSugar.Proofs.SteadyUnit

/-!
# The base of a source

Reading a text starts with the offset of its first byte, its base. The base shows up in the spans of
the tree, or of the error, and nowhere else: with another base all of these move together. The
tokens of a text move with its base (`Token.tokenize_add`), and a reader does the same wherever its
tokens stand (`Reader.Steady`).
-/

namespace ClassSugar

theorem ParseError.message_shift (k : Nat) (e : ParseError) : (e.shift k).message = e.message := by
  cases e with
  | grammar e => rfl
  | token e => cases e <;> rfl

namespace CompilationUnit

/-- What reading a text gives, `k` bytes further on. -/
def shiftResult (k : Nat) :
    Except ParseError CompilationUnit → Except ParseError CompilationUnit
  | .ok u => .ok (u.shift k)
  | .error e => .error (e.shift k)

theorem parse_add (ext : Extensions) (source : String) (base k : Nat) :
    parse ext source (base + k) = shiftResult k (parse ext source base) := by
  rw [parse, parse, Token.tokenize_add]
  cases htokens : Token.tokenize source base with
  | error e => rfl
  | ok ts =>
    -- There is a token to stand at, as the end of the file is one.
    obtain ⟨init, eof, rfl, -, heof, -⟩ := Token.exists_eof_of_tokenize htokens
    have hon : (Cursor.ofTokens (init ++ [eof])).On init := .ofTokens heof
    have hitems : Reader.Steady k init (fun _ => True) (List.map (Item.shift k))
        (Grammar.items ext false) (Grammar.items ext false) (.ofTokens (init ++ [eof])) _ :=
      Grammar.items_steady ext false
    dsimp only [Token.shiftResult]
    rw [Cursor.ofTokens_shift k (List.concat_ne_nil eof init)]
    cases hrun : Grammar.items ext false (Cursor.ofTokens (init ++ [eof])) with
    | error e c =>
      rw [(hitems.of_error hon.within hrun).1]
      rfl
    | ok items c =>
      rw [(hitems.of_ok hon.within hrun).1]
      dsimp only [shiftResult, CompilationUnit.shift]
      rw [Item.shiftAll_eq_map]

/-- **Only spans know the base.** A text is read with any two bases to the same end. The trees, or
the errors, are the same once each is moved by the base of the other, so a span of the second is a
span of the first moved by the distance of the bases. -/
theorem parse_translates (ext : Extensions) (source : String) (b₁ b₂ : Nat) :
    (∃ u₁ u₂, parse ext source b₁ = .ok u₁ ∧ parse ext source b₂ = .ok u₂ ∧
        u₁.shift b₂ = u₂.shift b₁) ∨
      ∃ e₁ e₂, parse ext source b₁ = .error e₁ ∧ parse ext source b₂ = .error e₂ ∧
        e₁.message = e₂.message ∧ e₁.shift b₂ = e₂.shift b₁ := by
  -- Both are what is read with the base zero, moved by a base.
  have h₁ := parse_add ext source 0 b₁
  have h₂ := parse_add ext source 0 b₂
  rw [Nat.zero_add] at h₁ h₂
  cases hzero : parse ext source 0 with
  | ok u =>
    rw [hzero] at h₁ h₂
    refine .inl ⟨u.shift b₁, u.shift b₂, h₁, h₂, ?_⟩
    rw [shift_shift, shift_shift, Nat.add_comm]
  | error e =>
    rw [hzero] at h₁ h₂
    refine .inr ⟨e.shift b₁, e.shift b₂, h₁, h₂, ?_, ?_⟩
    · rw [ParseError.message_shift, ParseError.message_shift]
    · rw [ParseError.shift_shift, ParseError.shift_shift, Nat.add_comm]

end CompilationUnit

end ClassSugar
