/-!
# Cutting a text in two

A scanner reads a nonempty part off the front of a text and leaves the rest. `Cut cs` is what it
gives back: the part that was read and the rest, which together spell `cs`. So no scanner can lose
or invent a character, and one that goes on from the rest of another goes on from a shorter text.
-/

namespace ClassSugar.Text

/-- A text cut in two, the first part not empty. -/
structure Cut (cs : List Char) where
  /-- What was read. -/
  read : List Char
  /-- What was not read. -/
  rest : List Char
  /-- Nothing is lost between the two. -/
  read_append_rest : read ++ rest = cs
  /-- Something was read. -/
  read_ne_nil : read ≠ []

namespace Cut

variable {cs : List Char}

attribute [simp] read_append_rest

/-- The rest is the end of the text. -/
theorem isSuffix (t : Cut cs) : t.rest <:+ cs :=
  ⟨t.read, t.read_append_rest⟩

/-- The rest is shorter than the text. -/
theorem shorter (t : Cut cs) : t.rest.length < cs.length := by
  have hlen := congrArg List.length t.read_append_rest
  have hpos := List.length_pos_iff.mpr t.read_ne_nil
  simp only [List.length_append] at hlen
  omega

/-- One character is read. -/
def one (c : Char) (r : List Char) : Cut (c :: r) :=
  ⟨[c], r, rfl, List.cons_ne_nil c []⟩

/-- The first `n` characters are read, and at least one. -/
def drop (c : Char) (r : List Char) (n : Nat) : Cut (c :: r) :=
  ⟨c :: r.take (n - 1), r.drop (n - 1), by simp, List.cons_ne_nil c _⟩

/-- One character is read, and those after it that pass a test. -/
def run (p : Char → Bool) (c : Char) (r : List Char) : Cut (c :: r) :=
  ⟨c :: r.takeWhile p, r.dropWhile p, by simp [List.takeWhile_append_dropWhile],
    List.cons_ne_nil c _⟩

/-- One character is read first. -/
def cons (c : Char) {r : List Char} (t : Cut r) : Cut (c :: r) :=
  ⟨c :: t.read, t.rest, by simp, List.cons_ne_nil c _⟩

/-- A text is read first. -/
def append {r : List Char} (front : List Char) (t : Cut r) (h : front ++ r = cs) : Cut cs :=
  ⟨front ++ t.read, t.rest, by simp [h], by simp [t.read_ne_nil]⟩

/-- Reading goes on from the rest. -/
def into (t : Cut cs) (u : Cut t.rest) : Cut cs :=
  u.append t.read t.read_append_rest

@[simp] theorem rest_one (c : Char) (r : List Char) : (one c r).rest = r := rfl

@[simp] theorem rest_drop (c : Char) (r : List Char) (n : Nat) :
    (drop c r n).rest = r.drop (n - 1) := rfl

@[simp] theorem rest_run (p : Char → Bool) (c : Char) (r : List Char) :
    (run p c r).rest = r.dropWhile p := rfl

@[simp] theorem rest_cons (c : Char) {r : List Char} (t : Cut r) :
    (cons c t).rest = t.rest := rfl

@[simp] theorem rest_append {r : List Char} (front : List Char) (t : Cut r) (h : front ++ r = cs) :
    (append front t h).rest = t.rest := rfl

@[simp] theorem rest_into (t : Cut cs) (u : Cut t.rest) : (t.into u).rest = u.rest := rfl

end Cut

end ClassSugar.Text
