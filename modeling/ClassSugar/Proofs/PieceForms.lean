import ClassSugar.Token.Piece
import Mathlib.Data.List.TakeWhile

/-!
# What the pieces of a text look like

The scanners of literals and comments say where one ends, and what is left to scan (`Reads`). Here
the texts that they read are described without them:

* the text of a literal without holes is a `LiteralBody` (`reads_charRest_iff`,
  `reads_quotedRest_iff`), and that of a block comment a `BlockBody` (`reads_blockRest_iff`);
* a raw literal ends with the first run of quotes that is as long as its fence
  (`reads_rawRest_iff`).

What follows matters only to a string, which must not go on with a quote. A string with holes is
described step by step (`quotedStep_iff`), as its holes are scanned by themselves.

A piece is a run of blanks, a comment or a token, whichever of them starts here (`Piece.NextAt`).
-/

namespace ClassSugar.Token

open ClassSugar.Text

/-! ### Runs of characters -/

theorem takeWhile_append_of_fails {p : Char → Bool} {a b : List Char} (ha : ∀ c ∈ a, p c = true)
    (hb : ∀ c, b.head? = some c → p c = false) : (a ++ b).takeWhile p = a := by
  rw [List.takeWhile_append_of_pos ha]
  cases b with
  | nil => rw [List.takeWhile_nil, List.append_nil]
  | cons c b => rw [List.takeWhile_cons_of_neg (by rw [hb c rfl]; nofun), List.append_nil]

theorem dropWhile_append_of_fails {p : Char → Bool} {a b : List Char} (ha : ∀ c ∈ a, p c = true)
    (hb : ∀ c, b.head? = some c → p c = false) : (a ++ b).dropWhile p = b := by
  rw [List.dropWhile_append_of_pos ha]
  cases b with
  | nil => rfl
  | cons c b => rw [List.dropWhile_cons_of_neg (by rw [hb c rfl]; nofun)]

theorem head_dropWhile_fails (p : Char → Bool) (cs : List Char) :
    ∀ c, (cs.dropWhile p).head? = some c → p c = false := by
  intro c hc
  have h := List.head?_dropWhile_not p cs
  rw [hc] at h
  simpa using h

/-! ### What a scanner reads -/

/-- A scanner succeeds, reads `a` and leaves `b`. -/
def Reads {cs : List Char} (x : Except Open (Cut cs)) (a b : List Char) : Prop :=
  ∃ t, x = .ok t ∧ t.read = a ∧ t.rest = b

namespace Reads

variable {cs a b : List Char} {x : Except Open (Cut cs)}

@[simp] theorem error_iff (left : Open) :
    Reads (.error left : Except Open (Cut cs)) a b ↔ False :=
  iff_of_false (fun ⟨_, h, _⟩ => nomatch h) id

@[simp] theorem ok_iff (t : Cut cs) : Reads (.ok t) a b ↔ t.read = a ∧ t.rest = b :=
  ⟨fun ⟨_, h, hread⟩ => by cases h; exact hread, fun h => ⟨t, rfl, h⟩⟩

theorem append_eq (h : Reads x a b) : a ++ b = cs := by
  obtain ⟨t, -, rfl, rfl⟩ := h
  exact t.read_append_rest

theorem ne_nil (h : Reads x a b) : a ≠ [] := by
  obtain ⟨t, -, rfl, -⟩ := h
  exact t.read_ne_nil

theorem length_lt (h : Reads x a b) : b.length < cs.length := by
  obtain ⟨t, -, -, rfl⟩ := h
  exact t.shorter

/-- What is put in front of a scanned part is read before it. -/
theorem map_iff {ds : List Char} {f : Cut cs → Cut ds} (front : List Char)
    (hread : ∀ t, (f t).read = front ++ t.read) (hrest : ∀ t, (f t).rest = t.rest) :
    Reads (x.map f) a b ↔ ∃ a₁, a = front ++ a₁ ∧ Reads x a₁ b := by
  cases x with
  | error left =>
    refine ⟨fun h => ((error_iff left).mp h).elim, ?_⟩
    rintro ⟨a₁, -, h⟩
    exact ((error_iff left).mp h).elim
  | ok t =>
    change Reads (.ok (f t)) a b ↔ _
    rw [ok_iff, hread, hrest]
    constructor
    · rintro ⟨rfl, rfl⟩
      exact ⟨t.read, rfl, (ok_iff t).mpr ⟨rfl, rfl⟩⟩
    · rintro ⟨a₁, rfl, h⟩
      obtain ⟨rfl, rfl⟩ := (ok_iff t).mp h
      exact ⟨rfl, rfl⟩

theorem cons_iff (c : Char) :
    Reads (x.map (Cut.cons c)) a b ↔ ∃ a₁, a = c :: a₁ ∧ Reads x a₁ b :=
  map_iff (f := Cut.cons c) [c] (fun _ => rfl) fun _ => rfl

theorem cons_cons_iff (c d : Char) :
    Reads (x.map fun t => (t.cons d).cons c) a b ↔ ∃ a₁, a = c :: d :: a₁ ∧ Reads x a₁ b :=
  map_iff (f := fun t => (t.cons d).cons c) [c, d] (fun _ => rfl) fun _ => rfl

theorem into_iff (t : Cut cs) {x : Except Open (Cut t.rest)} :
    Reads (x.map t.into) a b ↔ ∃ a₁, a = t.read ++ a₁ ∧ Reads x a₁ b :=
  map_iff t.read (fun _ => rfl) fun _ => rfl

theorem bind_iff {ds : List Char} {f : Cut cs → Except Open (Cut ds)} :
    Reads (x.bind f) a b ↔ ∃ t, x = .ok t ∧ Reads (f t) a b := by
  cases x with
  | error left => simp [Except.bind]
  | ok t => simp [Except.bind]

/-- Two scanners, one after the other. -/
theorem then_iff {g : (cs : List Char) → Except Open (Cut cs)} :
    Reads (x.bind fun t => (g t.rest).map t.into) a b ↔
      ∃ a₁ a₂, a = a₁ ++ a₂ ∧ Reads x a₁ (a₂ ++ b) ∧ Reads (g (a₂ ++ b)) a₂ b := by
  rw [bind_iff]
  constructor
  · rintro ⟨t, rfl, h⟩
    obtain ⟨a₂, rfl, h₂⟩ := (into_iff t).mp h
    refine ⟨t.read, a₂, rfl, ?_⟩
    rw [append_eq h₂]
    exact ⟨(ok_iff t).mpr ⟨rfl, rfl⟩, h₂⟩
  · rintro ⟨a₁, a₂, rfl, ⟨t, rfl, rfl, hrest⟩, h₂⟩
    rw [← hrest] at h₂
    exact ⟨t, rfl, (into_iff t).mpr ⟨a₂, rfl, h₂⟩⟩

theorem cons_then_iff (c : Char) {g : (cs : List Char) → Except Open (Cut cs)} :
    Reads (x.bind fun t => (g t.rest).map fun u => (t.into u).cons c) a b ↔
      ∃ a₁ a₂, a = c :: (a₁ ++ a₂) ∧ Reads x a₁ (a₂ ++ b) ∧ Reads (g (a₂ ++ b)) a₂ b := by
  have hswap : (x.bind fun t => (g t.rest).map fun u => (t.into u).cons c) =
      (x.bind fun t => (g t.rest).map t.into).map (Cut.cons c) := by
    cases x with
    | error left => rfl
    | ok t =>
      change (g t.rest).map _ = ((g t.rest).map t.into).map (Cut.cons c)
      cases g t.rest <;> rfl
  rw [hswap, cons_iff]
  constructor
  · rintro ⟨a', rfl, h⟩
    obtain ⟨a₁, a₂, rfl, h₁, h₂⟩ := then_iff.mp h
    exact ⟨a₁, a₂, rfl, h₁, h₂⟩
  · rintro ⟨a₁, a₂, rfl, h⟩
    exact ⟨a₁ ++ a₂, rfl, then_iff.mpr ⟨a₁, a₂, rfl, h⟩⟩

end Reads

/-- Reading as many characters as a text has that stands at the front reads that text. -/
theorem read_drop_of_append_eq {p more r : List Char} {c : Char} (hp : p ≠ [])
    (h : p ++ more = c :: r) :
    (Cut.drop c r p.length).read = p ∧ (Cut.drop c r p.length).rest = more := by
  obtain ⟨d, p, rfl⟩ := List.exists_cons_of_ne_nil hp
  obtain ⟨rfl, rfl⟩ := List.cons.inj h
  refine ⟨congrArg (d :: ·) ?_, ?_⟩
  · exact List.take_left
  · exact List.drop_left

/-! ### Character literals, comments and raw literals -/

/-- What stands in a literal after its opening quote, the closing quote included. -/
inductive LiteralBody (quote : Char) (verbatim : Bool) : List Char → Prop where
  | close : LiteralBody quote verbatim [quote]
  | quotes {a : List Char} (hverbatim : verbatim = true) (h : LiteralBody quote verbatim a) :
      LiteralBody quote verbatim (quote :: quote :: a)
  | escape {a : List Char} (d : Char) (hverbatim : verbatim = false)
      (h : LiteralBody quote verbatim a) : LiteralBody quote verbatim ('\\' :: d :: a)
  | plain {c : Char} {a : List Char} (hquote : c ≠ quote)
      (hescape : verbatim = false → c ≠ '\n' ∧ c ≠ '\\') (h : LiteralBody quote verbatim a) :
      LiteralBody quote verbatim (c :: a)

theorem LiteralBody.getLast? {quote : Char} {verbatim : Bool} {a : List Char}
    (h : LiteralBody quote verbatim a) : a.getLast? = some quote := by
  induction h with
  | close => rfl
  | quotes _ _ ih | escape d _ _ ih => rw [List.getLast?_cons_cons, List.getLast?_cons, ih]; rfl
  | plain _ _ _ ih => rw [List.getLast?_cons, ih]; rfl

theorem LiteralBody.getLast?_cons {quote : Char} {verbatim : Bool} {a : List Char}
    (h : LiteralBody quote verbatim a) (c : Char) : (c :: a).getLast? = some quote := by
  rw [List.getLast?_cons, h.getLast?]
  rfl

theorem reads_charRest_iff {start cs a b : List Char} :
    Reads (charRest start cs) a b ↔ cs = a ++ b ∧ LiteralBody '\'' false a := by
  constructor
  · intro h
    refine ⟨h.append_eq.symm, ?_⟩
    fun_induction charRest start cs generalizing a with
    -- The literal is left open, at the end of the text or behind a backslash.
    | case1 | case2 => exact ((Reads.error_iff _).mp h).elim
    | case3 c r ih =>
      obtain ⟨a, rfl, hr⟩ := (Reads.cons_cons_iff '\\' c).mp h
      exact .escape c rfl (ih hr)
    | case4 r =>
      obtain ⟨rfl, -⟩ := (Reads.ok_iff _).mp h
      exact .close
    -- A line break ends the line before the literal is closed.
    | case5 r => exact ((Reads.error_iff _).mp h).elim
    | case6 c r hlast hescape hquote hbreak ih =>
      obtain ⟨a, rfl, hr⟩ := (Reads.cons_iff c).mp h
      refine .plain hquote (fun _ => ⟨hbreak, fun hc => ?_⟩) (ih hr)
      cases r with
      | nil => exact hlast hc rfl
      | cons d r => exact hescape d r hc rfl
  · rintro ⟨rfl, h⟩
    induction h with
    | close => exact (Reads.ok_iff _).mpr ⟨rfl, rfl⟩
    | quotes hverbatim => cases hverbatim
    | escape d hverbatim h ih =>
      rw [List.cons_append, List.cons_append, charRest]
      exact (Reads.cons_cons_iff _ _).mpr ⟨_, rfl, ih⟩
    | @plain c a hquote hescape h ih =>
      obtain ⟨hbreak, hplain⟩ := hescape rfl
      rw [List.cons_append, charRest]
      · exact (Reads.cons_iff c).mpr ⟨_, rfl, ih⟩
      · exact fun hc => absurd hc hplain
      · exact fun _ _ hc => absurd hc hplain
      · exact hquote
      · exact hbreak

/-- The text of a block comment after its opening. -/
inductive BlockBody : List Char → Prop where
  | close : BlockBody ['*', '/']
  | cons {c : Char} {a : List Char} (hopen : c = '*' → a.head? ≠ some '/') (h : BlockBody a) :
      BlockBody (c :: a)

theorem reads_blockRest_iff {start cs a b : List Char} :
    Reads (blockRest start cs) a b ↔ cs = a ++ b ∧ BlockBody a := by
  constructor
  · intro h
    refine ⟨h.append_eq.symm, ?_⟩
    fun_induction blockRest start cs generalizing a with
    | case1 => exact ((Reads.error_iff _).mp h).elim
    | case2 r =>
      obtain ⟨rfl, -⟩ := (Reads.ok_iff _).mp h
      exact .close
    | case3 c r hopen ih =>
      obtain ⟨a, rfl, hr⟩ := (Reads.cons_iff c).mp h
      refine .cons (fun hc hhead => ?_) (ih hr)
      obtain ⟨s, rfl⟩ := List.head?_eq_some_iff.mp hhead
      exact hopen (s ++ b) hc hr.append_eq.symm
  · rintro ⟨rfl, h⟩
    induction h with
    | close => exact (Reads.ok_iff _).mpr ⟨rfl, rfl⟩
    | @cons c a hopen h ih =>
      rw [List.cons_append, blockRest]
      · exact (Reads.cons_iff c).mpr ⟨_, rfl, ih⟩
      · intro r hc hr
        refine hopen hc ?_
        cases h with
        | close => cases hr
        | cons => exact congrArg List.head? hr

theorem BlockBody.getLast? {a : List Char} (h : BlockBody a) : a.getLast? = some '/' := by
  induction h with
  | close => rfl
  | cons _ _ ih => rw [List.getLast?_cons, ih]; rfl

theorem BlockBody.getLast?_comment {a : List Char} (h : BlockBody a) (c : Char) :
    (c :: '*' :: a).getLast? = some '/' := by
  rw [List.getLast?_cons_cons, List.getLast?_cons, h.getLast?]
  rfl

/-- **How a raw literal is written**: its fence ends it, and did not stand in it before. -/
theorem reads_rawRest_iff {start cs a b : List Char} {quotes : Nat} (hquotes : 0 < quotes) :
    Reads (rawRest start quotes cs) a b ↔ cs = a ++ b ∧ List.replicate quotes '"' <:+ a ∧
      ¬List.replicate quotes '"' <:+: a.dropLast := by
  have hlength : (List.replicate quotes '"').length = quotes := List.length_replicate
  have hfull : List.replicate quotes '"' ≠ [] := List.ne_nil_of_length_pos (hlength.symm ▸ hquotes)
  generalize hfence : List.replicate quotes '"' = fence at hlength hfull
  fun_induction rawRest start quotes cs generalizing a with
  | case1 =>
    refine iff_of_false (fun h => (Reads.error_iff _).mp h) ?_
    rintro ⟨hnil, hsuffix, -⟩
    rw [(List.append_eq_nil_iff.mp hnil.symm).1] at hsuffix
    exact hfull (List.suffix_nil.mp hsuffix)
  | case2 c r hopen =>
    rw [hfence] at hopen
    obtain ⟨more, hmore⟩ := List.isPrefixOf_iff_prefix.mp hopen
    obtain ⟨hread, hrest⟩ := read_drop_of_append_eq hfull hmore
    rw [hlength] at hread hrest
    rw [Reads.ok_iff, hread, hrest, ← hmore]
    constructor
    · rintro ⟨rfl, rfl⟩
      refine ⟨rfl, List.suffix_rfl, fun hinfix => ?_⟩
      have := hinfix.length_le
      rw [List.length_dropLast] at this
      omega
    · rintro ⟨happend, hsuffix, hfirst⟩
      -- A longer part would have the fence in it before its end.
      have hshort : a.length ≤ fence.length := by
        by_contra hlonger
        have hfront : fence <+: fence ++ more := ⟨more, rfl⟩
        refine hfirst (List.IsPrefix.isInfix (List.prefix_of_prefix_length_le hfront ?_ ?_))
        · rw [happend]
          exact (List.dropLast_prefix a).trans (List.prefix_append a b)
        · rw [List.length_dropLast]
          omega
      obtain rfl := hsuffix.eq_of_length_le hshort
      exact ⟨rfl, List.append_cancel_left happend⟩
  | case3 c r hopen ih =>
    have hno : ∀ s, fence <+: s → ¬s <+: c :: r := fun s hs hcr =>
      hopen (List.isPrefixOf_iff_prefix.mpr (hfence ▸ hs.trans hcr))
    rw [Reads.cons_iff]
    constructor
    · rintro ⟨a, rfl, hr⟩
      obtain ⟨rfl, hsuffix, hfirst⟩ := ih.mp hr
      have ha : a ≠ [] := fun ha => hfull (List.suffix_nil.mp (ha ▸ hsuffix))
      refine ⟨rfl, hsuffix.trans (List.suffix_cons c a), fun hinfix => ?_⟩
      rw [List.dropLast_cons_of_ne_nil ha, List.infix_cons_iff] at hinfix
      refine hinfix.elim (fun hprefix => hno _ hprefix ?_) hfirst
      exact List.cons_prefix_cons.mpr ⟨rfl, (List.dropLast_prefix a).trans (List.prefix_append a b)⟩
    · rintro ⟨happend, hsuffix, hfirst⟩
      cases a with
      | nil => exact absurd (List.suffix_nil.mp hsuffix) hfull
      | cons c' a =>
        obtain ⟨rfl, rfl⟩ := List.cons.inj happend
        rcases List.suffix_cons_iff.mp hsuffix with rfl | hsuffix
        · exact absurd (List.prefix_append _ b) (hno _ List.prefix_rfl)
        · have ha : a ≠ [] := fun ha => hfull (List.suffix_nil.mp (ha ▸ hsuffix))
          refine ⟨a, rfl, ih.mpr ⟨rfl, hsuffix, fun hinfix => hfirst ?_⟩⟩
          rw [List.dropLast_cons_of_ne_nil ha]
          exact hinfix.trans (List.suffix_cons c _).isInfix

/-! ### Strings -/

section Quoted

variable (start : List Char) (verbatim interpolated : Bool) (r : List Char)

theorem quotedRest_nil :
    quotedRest start verbatim interpolated [] = .error ⟨.stringLiteral, start, []⟩ := by
  rw [quotedRest.eq_def]

theorem quotedRest_break :
    quotedRest start false interpolated ('\n' :: r) =
      .error ⟨.stringLiteral, start, '\n' :: r⟩ := by
  rw [quotedRest.eq_def]
  grind

theorem quotedRest_escape_nil :
    quotedRest start false interpolated ['\\'] = .error ⟨.stringLiteral, start, []⟩ := by
  rw [quotedRest.eq_def]
  grind

theorem quotedRest_quote (h : verbatim = true → ∀ r', r ≠ '"' :: r') :
    quotedRest start verbatim interpolated ('"' :: r) = .ok (Cut.one '"' r) := by
  rw [quotedRest.eq_def]
  grind

/-- Two characters of a string that are read together. -/
def IsPair (verbatim interpolated : Bool) (c d : Char) : Prop :=
  c = '\\' ∧ verbatim = false ∨ c = '"' ∧ d = '"' ∧ verbatim = true ∨
    c = '{' ∧ d = '{' ∧ interpolated = true

theorem quotedRest_pair {c d : Char} (h : IsPair verbatim interpolated c d) :
    quotedRest start verbatim interpolated (c :: d :: r) =
      (quotedRest start verbatim interpolated r).map fun t => (t.cons d).cons c := by
  rw [quotedRest.eq_def]
  rcases h with ⟨rfl, rfl⟩ | ⟨rfl, rfl, rfl⟩ | ⟨rfl, rfl, rfl⟩ <;> grind

theorem quotedRest_hole (h : ∀ r', r ≠ '{' :: r') :
    quotedRest start verbatim true ('{' :: r) = (holeRest start 0 r).bind fun hole =>
      (quotedRest start verbatim true hole.rest).map fun t => (hole.into t).cons '{' := by
  rw [quotedRest.eq_def]
  grind [Except.bind]

theorem quotedRest_plain {c : Char} (hquote : c ≠ '"')
    (hescape : verbatim = false → c ≠ '\n' ∧ c ≠ '\\') (hhole : interpolated = true → c ≠ '{') :
    quotedRest start verbatim interpolated (c :: r) =
      (quotedRest start verbatim interpolated r).map (Cut.cons c) := by
  rw [quotedRest.eq_def]
  grind

end Quoted

/-- How a string starts that is read up to its closing quote: `a` is read, and `b` is left. -/
inductive QuotedStep (start : List Char) (verbatim interpolated : Bool) (b : List Char) :
    List Char → List Char → Prop where
  | close (h : verbatim = true → ∀ r, b ≠ '"' :: r) :
      QuotedStep start verbatim interpolated b ('"' :: b) ['"']
  | pair {c d : Char} {r a : List Char} (hpair : IsPair verbatim interpolated c d)
      (h : Reads (quotedRest start verbatim interpolated r) a b) :
      QuotedStep start verbatim interpolated b (c :: d :: r) (c :: d :: a)
  | hole {r a₁ a₂ : List Char} (hinterpolated : interpolated = true) (hr : ∀ r', r ≠ '{' :: r')
      (hhole : Reads (holeRest start 0 r) a₁ (a₂ ++ b))
      (h : Reads (quotedRest start verbatim interpolated (a₂ ++ b)) a₂ b) :
      QuotedStep start verbatim interpolated b ('{' :: r) ('{' :: (a₁ ++ a₂))
  | plain {c : Char} {r a : List Char} (hquote : c ≠ '"')
      (hescape : verbatim = false → c ≠ '\n' ∧ c ≠ '\\') (hopen : interpolated = true → c ≠ '{')
      (h : Reads (quotedRest start verbatim interpolated r) a b) :
      QuotedStep start verbatim interpolated b (c :: r) (c :: a)

theorem quotedStep_iff {start cs a b : List Char} {verbatim interpolated : Bool} :
    Reads (quotedRest start verbatim interpolated cs) a b ↔
      QuotedStep start verbatim interpolated b cs a := by
  constructor
  · intro h
    cases cs with
    | nil =>
      rw [quotedRest_nil] at h
      exact ((Reads.error_iff _).mp h).elim
    | cons c r =>
      by_cases hclose : c = '"' ∧ (verbatim = true → ∀ r', r ≠ '"' :: r')
      · obtain ⟨rfl, hr⟩ := hclose
        rw [quotedRest_quote _ _ _ _ hr] at h
        obtain ⟨rfl, rfl⟩ := (Reads.ok_iff _).mp h
        exact .close hr
      by_cases hpair : ∃ d r', r = d :: r' ∧ IsPair verbatim interpolated c d
      · obtain ⟨d, r, rfl, hpair⟩ := hpair
        rw [quotedRest_pair _ _ _ _ hpair] at h
        obtain ⟨a, rfl, hr⟩ := (Reads.cons_cons_iff _ _).mp h
        exact .pair hpair hr
      by_cases hhole : interpolated = true ∧ c = '{'
      · obtain ⟨rfl, rfl⟩ := hhole
        have hr : ∀ r', r ≠ '{' :: r' := by grind [IsPair]
        rw [quotedRest_hole _ _ _ hr] at h
        obtain ⟨a₁, a₂, rfl, h₁, h₂⟩ := (Reads.cons_then_iff _).mp h
        exact .hole rfl hr h₁ h₂
      by_cases hstop : verbatim = false ∧ (c = '\n' ∨ c = '\\')
      · obtain ⟨rfl, rfl | rfl⟩ := hstop
        · rw [quotedRest_break] at h
          exact ((Reads.error_iff _).mp h).elim
        · -- Only the end of the text does not make a pair with a backslash.
          obtain rfl : r = [] := by cases r <;> grind [IsPair]
          rw [quotedRest_escape_nil] at h
          exact ((Reads.error_iff _).mp h).elim
      · have hquote : c ≠ '"' := by grind [IsPair]
        rw [quotedRest_plain start verbatim interpolated r hquote (by grind) (by grind)] at h
        obtain ⟨a, rfl, hr⟩ := (Reads.cons_iff c).mp h
        exact .plain hquote (by grind) (by grind) hr
  · intro h
    cases h with
    | close h =>
      rw [quotedRest_quote _ _ _ _ h]
      exact (Reads.ok_iff _).mpr ⟨rfl, rfl⟩
    | pair hpair h =>
      rw [quotedRest_pair _ _ _ _ hpair]
      exact (Reads.cons_cons_iff _ _).mpr ⟨_, rfl, h⟩
    | hole hinterpolated hr h₁ h₂ =>
      subst hinterpolated
      rw [quotedRest_hole _ _ _ hr]
      exact (Reads.cons_then_iff _).mpr ⟨_, _, rfl, h₁, h₂⟩
    | plain hquote hescape hopen h =>
      rw [quotedRest_plain _ _ _ _ hquote hescape hopen]
      exact (Reads.cons_iff _).mpr ⟨_, rfl, h⟩

theorem literalBody_of_reads {start a b : List Char} {verbatim : Bool} (cs : List Char)
    (h : Reads (quotedRest start verbatim false cs) a b) :
    LiteralBody '"' verbatim a ∧ (verbatim = true → b.head? ≠ some '"') := by
  -- An escape and a doubled quote are two characters, so the induction is on the length.
  induction hn : cs.length using Nat.strong_induction_on generalizing cs a with
  | _ n ih =>
    cases quotedStep_iff.mp h with
    | close hend =>
      refine ⟨.close, fun hv hhead => ?_⟩
      obtain ⟨r, hr⟩ := List.head?_eq_some_iff.mp hhead
      exact hend hv r hr
    | @pair c d r a hpair hr =>
      obtain ⟨hbody, hnext⟩ := ih r.length (by grind) r hr rfl
      rcases hpair with ⟨rfl, hv⟩ | ⟨rfl, rfl, hv⟩ | ⟨-, -, hinterpolated⟩
      · exact ⟨.escape d hv hbody, hnext⟩
      · exact ⟨.quotes hv hbody, hnext⟩
      · cases hinterpolated
    | hole hinterpolated => cases hinterpolated
    | @plain c r a hquote hescape _ hr =>
      obtain ⟨hbody, hnext⟩ := ih r.length (by grind) r hr rfl
      exact ⟨.plain hquote hescape hbody, hnext⟩

theorem reads_quotedRest_iff {start cs a b : List Char} {verbatim : Bool} :
    Reads (quotedRest start verbatim false cs) a b ↔
      cs = a ++ b ∧ LiteralBody '"' verbatim a ∧ (verbatim = true → b.head? ≠ some '"') := by
  constructor
  · exact fun h => ⟨h.append_eq.symm, literalBody_of_reads cs h⟩
  · rintro ⟨rfl, h, hnext⟩
    induction h with
    | close =>
      refine quotedStep_iff.mpr (.close ?_)
      rintro hv r' rfl
      exact hnext hv rfl
    | quotes hv h ih => exact quotedStep_iff.mpr (.pair (.inr (.inl ⟨rfl, rfl, hv⟩)) ih)
    | escape d hv h ih => exact quotedStep_iff.mpr (.pair (.inl ⟨rfl, hv⟩) ih)
    | plain hquote hescape h ih => exact quotedStep_iff.mpr (.plain hquote hescape nofun ih)

/-! ### Pieces -/

namespace Piece

variable {lineStart : Bool} {c : Char} {r a b : List Char} {kind : Piece.Kind} {t : Cut (c :: r)}

theorem forall_mem_untilNewline (hc : c ≠ '\n') :
    '\n' ∉ (untilNewline c r).read := by
  intro hmem
  rcases List.mem_cons.mp hmem with heq | hmem
  · exact hc heq.symm
  · have htest := List.mem_takeWhile_imp hmem
    simp at htest

/-- What a comment is. -/
inductive CommentAt (lineStart : Bool) (c : Char) :
    Piece.Kind → List Char → List Char → Prop where
  | line {a b : List Char} (hopen : ['/', '/'] <+: c :: a ∨ c = '#' ∧ lineStart = true)
      (hline : '\n' ∉ c :: a) (hend : ∀ d, b.head? = some d → d = '\n') :
      CommentAt lineStart c .line (c :: a) b
  | block {a b : List Char} (hopen : c = '/') (hbody : BlockBody a) :
      CommentAt lineStart c .block (c :: '*' :: a) b

theorem commentAt_of_comment? (h : comment? lineStart c r = some (.ok (kind, t))) :
    CommentAt lineStart c kind t.read t.rest := by
  have hbreak : ∀ (c : Char) (r : List Char) (d : Char),
      (untilNewline c r).rest.head? = some d → d = '\n' := by
    intro c r d hd
    simpa using head_dropWhile_fails (· != '\n') r d hd
  unfold comment? at h
  split at h
  · -- `//`
    cases h
    exact .line (.inl ⟨_, rfl⟩) (forall_mem_untilNewline (by decide)) (hbreak _ _)
  · -- `/*`
    rename_i r
    cases hrest : blockRest ('/' :: '*' :: r) r with
    | error left => rw [hrest] at h; cases h
    | ok t =>
      rw [hrest] at h
      cases h
      exact .block rfl (reads_blockRest_iff.mp ⟨t, hrest, rfl, rfl⟩).2
  · -- `#`
    split at h
    · cases h
      exact .line (.inr ⟨rfl, ‹_›⟩) (forall_mem_untilNewline (by decide)) (hbreak _ _)
    · cases h
  · cases h

theorem CommentAt.head_eq (h : CommentAt lineStart c kind a b) : c = '/' ∨ c = '#' := by
  cases h with
  | line hopen => exact hopen.imp (fun h => (List.cons_prefix_cons.mp h).1.symm) And.left
  | block hopen => exact .inl hopen

/-- A comment is found where it stands. -/
theorem CommentAt.exists_comment? (h : CommentAt lineStart c kind (c :: a) b) :
    ∃ t, comment? lineStart c (a ++ b) = some (.ok (kind, t)) ∧ t.read = c :: a ∧ t.rest = b := by
  cases h with
  | line hopen hline hend =>
    have hpass : ∀ d ∈ a, (d != '\n') = true :=
      fun d hd => bne_iff_ne.mpr fun heq => hline (heq ▸ List.mem_cons_of_mem c hd)
    have hfail : ∀ d, b.head? = some d → (d != '\n') = false := by
      intro d hd
      rw [hend d hd]
      rfl
    refine ⟨untilNewline c (a ++ b), ?_, congrArg (c :: ·) (takeWhile_append_of_fails hpass hfail),
      dropWhile_append_of_fails hpass hfail⟩
    rcases hopen with hslashes | ⟨rfl, rfl⟩
    · obtain ⟨rfl, a, rfl⟩ := List.cons_prefix_cons.mp hslashes
      rfl
    · rfl
  | @block a b hopen hbody =>
    subst hopen
    obtain ⟨t, hrest, hread, hleft⟩ :
        Reads (blockRest ('/' :: '*' :: (a ++ b)) (a ++ b)) a b :=
      reads_blockRest_iff.mpr ⟨rfl, hbody⟩
    refine ⟨(t.cons '*').cons '/', ?_, congrArg ('/' :: '*' :: ·) hread, hleft⟩
    change some ((blockRest ('/' :: '*' :: (a ++ b)) (a ++ b)).map _) = _
    rw [hrest]
    rfl

/-- Whether a number starts with `c`, where `r` follows it. -/
def startsNumber (c : Char) (r : List Char) : Bool :=
  c.isDigit || (c == '.' && startsWithDigit r)

/-- Whether a word starts with `c`, where `r` follows it. -/
def startsName (c : Char) (r : List Char) : Bool :=
  isWordStart c || (c == '@' && startsWithWord r)

/-- What token starts with `c`, where `r` follows it. -/
inductive TokenAt (c : Char) (r : List Char) : Token.Kind → Cut (c :: r) → Prop where
  | string {o : Opening (c :: r)} {t : Cut (c :: r)} (ho : Opening.of? (c :: r) = some o)
      (hclose : o.close = .ok t) : TokenAt c r .str t
  | char {t : Cut r} (hquote : c = '\'') (hrest : charRest (c :: r) r = .ok t) :
      TokenAt c r .char (t.cons c)
  | number (ho : Opening.of? (c :: r) = none) (hquote : c ≠ '\'')
      (hnumber : startsNumber c r = true) : TokenAt c r .number (numberRest c r)
  | word (ho : Opening.of? (c :: r) = none) (hquote : c ≠ '\'') (hnumber : startsNumber c r = false)
      (hname : startsName c r = true) : TokenAt c r .ident (Cut.run isWordChar c r)
  | punct {p : String} (ho : Opening.of? (c :: r) = none) (hquote : c ≠ '\'')
      (hnumber : startsNumber c r = false) (hname : startsName c r = false)
      (hp : punct? (c :: r) = some p) : TokenAt c r .punct (Cut.drop c r p.length)

theorem token_eq_ok_iff {kind : Token.Kind} :
    token c r = .ok (kind, t) ↔ TokenAt c r kind t := by
  constructor
  · intro h
    -- The tests of `token` in their order, each of which is a case of `TokenAt`.
    unfold token at h
    split at h
    case h_1 o ho =>
      split at h <;> cases h
      exact .string ho ‹_›
    -- No string opens here.
    case h_2 ho =>
      split at h
      case isTrue hquote =>
        split at h <;> cases h
        exact .char hquote ‹_›
      case isFalse hquote =>
        split at h
        case isTrue hnumber =>
          cases h
          exact .number ho hquote hnumber
        case isFalse hnumber =>
          split at h
          case isTrue hname =>
            cases h
            exact .word ho hquote (Bool.eq_false_iff.mpr hnumber) hname
          case isFalse hname =>
            split at h <;> cases h
            exact .punct ho hquote (Bool.eq_false_iff.mpr hnumber) (Bool.eq_false_iff.mpr hname) ‹_›
  · intro h
    unfold token
    cases h with
    | string ho hclose => simp only [ho, hclose]
    | char hquote hrest =>
      subst hquote
      have ho : Opening.of? ('\'' :: r) = none := rfl
      simp only [ho, hrest, if_true]
    | number ho hquote hnumber =>
      simp only [ho, hquote, if_false]
      exact if_pos hnumber
    | word ho hquote hnumber hname =>
      simp only [ho, hquote, if_false]
      exact (if_neg (Bool.eq_false_iff.mp hnumber)).trans (if_pos hname)
    | punct ho hquote hnumber hname hp =>
      simp only [ho, hquote, hp, if_false]
      exact (if_neg (Bool.eq_false_iff.mp hnumber)).trans (if_neg (Bool.eq_false_iff.mp hname))

/-- What piece starts with `c`, where `r` follows it. -/
inductive NextAt (lineStart : Bool) (c : Char) (r : List Char) :
    Piece.Kind → Cut (c :: r) → Prop where
  | blank (hblank : isBlank c = true) : NextAt lineStart c r .blank (Cut.run isBlank c r)
  | comment {kind : Piece.Kind} {t : Cut (c :: r)} (hblank : isBlank c = false)
      (hcomment : comment? lineStart c r = some (.ok (kind, t))) : NextAt lineStart c r kind t
  | token {kind : Token.Kind} {t : Cut (c :: r)} (hblank : isBlank c = false)
      (hcomment : comment? lineStart c r = none) (htoken : TokenAt c r kind t) :
      NextAt lineStart c r (.token kind) t

theorem nextAt_of_next (h : next lineStart c r = .ok (kind, t)) : NextAt lineStart c r kind t := by
  unfold next at h
  split at h
  · cases h
    exact .blank ‹_›
  · rename_i hblank
    have hblank := Bool.eq_false_iff.mpr hblank
    cases hcomment : comment? lineStart c r with
    | some found =>
      rw [hcomment] at h
      cases found with
      | error left => cases h
      | ok found =>
        cases h
        exact .comment hblank hcomment
    | none =>
      rw [hcomment] at h
      cases htoken : token c r with
      | error fault => rw [htoken] at h; cases h
      | ok found =>
        rw [htoken] at h
        cases h
        exact .token hblank hcomment (token_eq_ok_iff.mp htoken)

/-- Of blanks and comments none is a token. -/
theorem tokenAt_of_next {kind : Token.Kind} (h : next lineStart c r = .ok (.token kind, t)) :
    isBlank c = false ∧ TokenAt c r kind t := by
  cases nextAt_of_next h with
  | comment _ hcomment => cases commentAt_of_comment? hcomment
  | token hblank _ htoken => exact ⟨hblank, htoken⟩

end Piece

end ClassSugar.Token
