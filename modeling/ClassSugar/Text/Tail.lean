/-!
# The rest of a sequence

Looking ahead in a sequence passes over a nonempty part of it and leaves the rest. `Tail cs` is such
a rest: a suffix of `cs` that is strictly shorter. Keeping the two facts with the value lets one
recursive function go on from the rest of another, and gives back the part that was passed over
without recording it: `Tail.read t ++ t.rest = cs`.
-/

namespace ClassSugar.Text

/-- What is left of `cs` after a nonempty part of it was read. -/
structure Tail {α : Type} (cs : List α) where
  /-- What was not read. -/
  rest : List α
  /-- It is the end of the sequence. -/
  isSuffix : rest <:+ cs
  /-- Something was read. -/
  shorter : rest.length < cs.length

namespace Tail

variable {α : Type} {cs : List α}

/-- The part that was read. -/
def read (t : Tail cs) : List α :=
  cs.take (cs.length - t.rest.length)

/-- Nothing is lost between what was read and the rest. -/
@[simp] theorem read_append_rest (t : Tail cs) : t.read ++ t.rest = cs := by
  have h := List.suffix_iff_eq_drop.mp t.isSuffix
  have hrest : t.rest = cs.drop (cs.length - t.rest.length) := h
  calc t.read ++ t.rest
      = t.read ++ cs.drop (cs.length - t.rest.length) := by rw [← hrest]
    _ = cs := List.take_append_drop _ cs

/-- The part that was read is not empty. -/
theorem read_ne_nil (t : Tail cs) : t.read ≠ [] := by
  intro h
  have hlen := congrArg List.length t.read_append_rest
  have := t.shorter
  rw [h] at hlen
  simp at hlen
  omega

/-- The rest after reading one character and then any suffix of what follows. -/
def ofSuffix (c : α) {r rest : List α} (h : rest <:+ r) : Tail (c :: r) where
  rest := rest
  isSuffix := h.trans (List.suffix_cons c r)
  shorter := Nat.lt_succ_of_le h.length_le

/-- The rest after reading the first `n` characters, and at least one. -/
def drop (c : α) (r : List α) (n : Nat) : Tail (c :: r) :=
  ofSuffix c (List.drop_suffix (n - 1) r)

/-- The rest after reading one character. -/
def one (c : α) (r : List α) : Tail (c :: r) :=
  ofSuffix c (List.suffix_refl r)

/-- Reading on from the rest. -/
def into (t : Tail cs) (u : Tail t.rest) : Tail cs where
  rest := u.rest
  isSuffix := u.isSuffix.trans t.isSuffix
  shorter := Nat.lt_trans u.shorter t.shorter

/-- Reading one character first. -/
def cons (c : α) {r : List α} (t : Tail r) : Tail (c :: r) :=
  ofSuffix c t.isSuffix

@[simp] theorem rest_ofSuffix (c : α) {r rest : List α} (h : rest <:+ r) :
    (ofSuffix c h).rest = rest := rfl

@[simp] theorem rest_drop (c : α) (r : List α) (n : Nat) :
    (drop c r n).rest = r.drop (n - 1) := rfl

@[simp] theorem rest_one (c : α) (r : List α) : (one c r).rest = r := rfl

@[simp] theorem rest_into (t : Tail cs) (u : Tail t.rest) : (t.into u).rest = u.rest := rfl

@[simp] theorem rest_cons (c : α) {r : List α} (t : Tail r) :
    (cons c t).rest = t.rest := rfl

end Tail

end ClassSugar.Text
