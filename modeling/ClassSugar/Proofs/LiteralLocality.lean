import ClassSugar.Proofs.PieceForms

/-!
# Literals and comments are read no further than they have to be

A scanner decides where a literal or a comment ends by looking at what follows: whether a quote is
doubled, a fence is complete, a brace opens a hole. Each such decision is for going on only if there
is something to go on with on the same line, so it stays the same if what follows is cut off, at
once or later, and also if a line break and more is put there (`Local`).

Most scanners need not look at all, as what they read has a form of its own (`local_of_iff`). Those
of string literals with holes call each other; `literals_local` shows all three to be local at
once, by induction on the length of the text.
-/

namespace ClassSugar.Token

open ClassSugar.Text

/-! ### What follows -/

/-- The first line of `b'` is a beginning of `b`: who looks no further than to a line break sees no
more in `b'` than in `b`. -/
def LineWithin (b' b : List Char) : Prop :=
  b'.takeWhile (· != '\n') <+: b

namespace LineWithin

variable {b' b : List Char}

/-- Cutting off what follows leaves less to see. -/
theorem of_isPrefix (h : b' <+: b) : LineWithin b' b :=
  (List.takeWhile_prefix _).trans h

theorem append_left (a : List Char) (h : LineWithin b' b) : LineWithin (a ++ b') (a ++ b) := by
  unfold LineWithin
  rw [List.takeWhile_append]
  split
  · exact (List.prefix_append_right_inj a).mpr h
  · exact (List.takeWhile_prefix _).trans (List.prefix_append a b)

/-- What is put after a line break is not seen. -/
theorem append_newline (b more : List Char) : LineWithin (b ++ '\n' :: more) b := by
  have hnone : LineWithin ('\n' :: more) [] := List.nil_prefix
  have happend := hnone.append_left b
  rwa [List.append_nil] at happend

theorem cons (c : Char) (h : LineWithin b' b) : LineWithin (c :: b') (c :: b) :=
  h.append_left [c]

/-- A character on the first line stood there before. -/
theorem exists_cons {c : Char} (h : LineWithin (c :: b') b) (hc : c ≠ '\n') :
    ∃ more, b = c :: more ∧ LineWithin b' more := by
  unfold LineWithin at h
  rw [List.takeWhile_cons_of_pos (p := (· != '\n')) (bne_iff_ne.mpr hc)] at h
  exact List.cons_prefix_iff.mp h

/-- What is seen on the first line was there before. -/
theorem isPrefix_of (h : LineWithin b' b) {w : List Char} (hw : '\n' ∉ w) (hb : w <+: b') :
    w <+: b := by
  obtain ⟨more, rfl⟩ := hb
  have hline : ∀ c ∈ w, (c != '\n') = true := fun c hc => bne_iff_ne.mpr fun heq => hw (heq ▸ hc)
  unfold LineWithin at h
  rw [List.takeWhile_append_of_pos hline] at h
  exact (List.prefix_append w _).trans h

/-- A test that a text fails at its start, as a line break does, is failed by what shows no more. -/
theorem head_fails {p : Char → Bool} (h : LineWithin b' b) (hbreak : p '\n' = false)
    (hb : ∀ c, b.head? = some c → p c = false) : ∀ c, b'.head? = some c → p c = false := by
  intro c hc
  obtain ⟨more', rfl⟩ := List.head?_eq_some_iff.mp hc
  by_cases hc : c = '\n'
  · rw [hc, hbreak]
  · obtain ⟨more, rfl, -⟩ := h.exists_cons hc
    exact hb c rfl

theorem length_takeWhile_le {p : Char → Bool} (h : LineWithin b' b) (hbreak : p '\n' = false) :
    (b'.takeWhile p).length ≤ (b.takeWhile p).length := by
  have hpass : ∀ c ∈ b'.takeWhile p, p c = true := fun c => List.mem_takeWhile_imp
  have hline : '\n' ∉ b'.takeWhile p := fun hmem => by
    rw [hpass _ hmem] at hbreak
    cases hbreak
  obtain ⟨more, hmore⟩ := h.isPrefix_of hline (List.takeWhile_prefix p)
  rw [← hmore, List.takeWhile_append_of_pos hpass, List.length_append]
  exact Nat.le_add_right _ _

end LineWithin

/-! ### Runs of characters -/

theorem take_length_takeWhile (p : Char → Bool) (cs : List Char) :
    cs.take (cs.takeWhile p).length = cs.takeWhile p :=
  (List.prefix_iff_eq_take.mp (List.takeWhile_prefix p)).symm

theorem drop_length_takeWhile (p : Char → Bool) (cs : List Char) :
    cs.drop (cs.takeWhile p).length = cs.dropWhile p := by
  have hcs : cs.takeWhile p ++ cs.dropWhile p = cs := List.takeWhile_append_dropWhile
  have hdrop : (cs.takeWhile p ++ cs.dropWhile p).drop (cs.takeWhile p).length = cs.dropWhile p :=
    List.drop_left
  rwa [hcs] at hdrop

/-! ### Scanners -/

/-- A scanner that reads a part of `cs` reads the same part if what follows shows no more than
before. The second scanner differs from the first at most in what it would report. -/
def Local (f f' : (cs : List Char) → Except Open (Cut cs)) (cs : List Char) : Prop :=
  ∀ a b b', Reads (f cs) a b → LineWithin b' b → Reads (f' (a ++ b')) a b'

/-- So it is if what is read can be told without what follows it. -/
theorem local_of_iff {f f' : (cs : List Char) → Except Open (Cut cs)} {body : List Char → Prop}
    (hf : ∀ cs a b, Reads (f cs) a b ↔ cs = a ++ b ∧ body a)
    (hf' : ∀ cs a b, Reads (f' cs) a b ↔ cs = a ++ b ∧ body a) (cs : List Char) : Local f f' cs :=
  fun a b b' h _ => (hf' _ a b').mpr ⟨rfl, ((hf cs a b).mp h).2⟩

theorem charRest_local (start start' cs : List Char) :
    Local (charRest start) (charRest start') cs :=
  local_of_iff (fun _ _ _ => reads_charRest_iff) (fun _ _ _ => reads_charRest_iff) cs

theorem rawRest_local (start start' : List Char) {quotes : Nat} (hquotes : 0 < quotes)
    (cs : List Char) : Local (rawRest start quotes) (rawRest start' quotes) cs :=
  local_of_iff (fun _ _ _ => reads_rawRest_iff hquotes) (fun _ _ _ => reads_rawRest_iff hquotes) cs

/-! ### String literals -/

theorem quotedRest_local_of {start start' : List Char} {verbatim interpolated : Bool}
    {cs : List Char}
    (hquoted : ∀ ds, ds.length < cs.length →
      Local (quotedRest start verbatim interpolated) (quotedRest start' verbatim interpolated) ds)
    (hhole : ∀ ds, ds.length < cs.length → Local (holeRest start 0) (holeRest start' 0) ds) :
    Local (quotedRest start verbatim interpolated) (quotedRest start' verbatim interpolated)
      cs := by
  intro a b b' h hb
  apply quotedStep_iff.mpr
  cases quotedStep_iff.mp h with
  | close hend =>
    refine .close ?_
    -- No quote follows now either.
    rintro hv r' rfl
    obtain ⟨more, rfl, -⟩ := hb.exists_cons (by decide)
    exact hend hv more rfl
  | @pair c d r a hpair hr => exact .pair hpair (hquoted r (by grind) a b b' hr hb)
  | @hole r a₁ a₂ hinterpolated hr h₁ h₂ =>
    have h₁' := hhole r (by simp) a₁ (a₂ ++ b) (a₂ ++ b') h₁ (hb.append_left a₂)
    have h₂' := hquoted (a₂ ++ b) (Nat.lt_succ_of_lt h₁.length_lt) a₂ b b' h₂ hb
    rw [List.cons_append, List.append_assoc]
    refine .hole hinterpolated ?_ h₁' h₂'
    intro r' hr'
    obtain ⟨d, a₃, rfl⟩ := List.exists_cons_of_ne_nil h₁.ne_nil
    obtain ⟨rfl, -⟩ := List.cons.inj hr'
    exact hr (a₃ ++ (a₂ ++ b)) h₁.append_eq.symm
  | @plain c r a hquote hescape hopen hr =>
    exact .plain hquote hescape hopen (hquoted r (by grind) a b b' hr hb)

section Hole

variable (start : List Char) (depth : Nat) (r : List Char)

theorem holeRest_literal {cs : List Char} {o : Opening cs} (ho : Opening.of? cs = some o) :
    holeRest start depth cs =
      o.close.bind fun t => (holeRest start depth t.rest).map t.into := by
  rw [holeRest.eq_def]
  grind [Except.bind]

theorem holeRest_nil :
    holeRest start depth [] = .error ⟨.stringInterpolation, start, []⟩ := by
  rw [holeRest.eq_def]
  rfl

theorem holeRest_open :
    holeRest start depth ('{' :: r) = (holeRest start (depth + 1) r).map (Cut.cons '{') := by
  have ho : Opening.of? ('{' :: r) = none := rfl
  rw [holeRest.eq_def]
  grind

theorem holeRest_shut :
    holeRest start (depth + 1) ('}' :: r) = (holeRest start depth r).map (Cut.cons '}') := by
  have ho : Opening.of? ('}' :: r) = none := rfl
  rw [holeRest.eq_def]
  grind

theorem holeRest_end : holeRest start 0 ('}' :: r) = .ok (Cut.one '}' r) := by
  have ho : Opening.of? ('}' :: r) = none := rfl
  rw [holeRest.eq_def]
  grind

theorem holeRest_char :
    holeRest start depth ('\'' :: r) = (charRest ('\'' :: r) r).bind fun t =>
      (holeRest start depth t.rest).map fun u => (t.into u).cons '\'' := by
  have ho : Opening.of? ('\'' :: r) = none := rfl
  rw [holeRest.eq_def]
  grind [Except.bind]

theorem holeRest_plain {c : Char} {r : List Char} (ho : Opening.of? (c :: r) = none)
    (hc : c ≠ '{' ∧ c ≠ '}' ∧ c ≠ '\'') :
    holeRest start depth (c :: r) = (holeRest start depth r).map (Cut.cons c) := by
  rw [holeRest.eq_def]
  grind

end Hole

/-- The text is marks that can open a string literal, a quote, and `r`. -/
structure Opens (cs marks r : List Char) : Prop where
  spell : cs = marks ++ '"' :: r
  areMarks : ∀ c ∈ marks, isMark c = true
  areOpen : marksOpen marks = true

namespace Opens

variable {cs marks r : List Char}

theorem takeWhile_isMark (h : Opens cs marks r) : cs.takeWhile isMark = marks := by
  rw [h.spell]
  exact takeWhile_append_of_fails h.areMarks (by rintro c ⟨⟩; rfl)

theorem dropWhile_isMark (h : Opens cs marks r) : cs.dropWhile isMark = '"' :: r := by
  rw [h.spell]
  exact dropWhile_append_of_fails h.areMarks (by rintro c ⟨⟩; rfl)

/-- There is no line break in an opening. -/
theorem newline_notMem (h : Opens cs marks r) : '\n' ∉ marks ++ ['"'] := by
  intro hmem
  rcases List.mem_append.mp hmem with hmark | hquote
  · exact absurd (h.areMarks _ hmark) (by decide)
  · exact absurd (List.mem_singleton.mp hquote) (by decide)

end Opens

/-- The number of quotes of an opening whose first quote stands before `r`. -/
def quotesBefore (r : List Char) : Nat :=
  1 + (r.takeWhile (· == '"')).length

/-- What the opening is, if the text starts with one. -/
theorem Opens.exists_opening {cs marks r : List Char} (h : Opens cs marks r) :
    ∃ o, Opening.of? cs = some o ∧ o.verbatim = marks.contains '@' ∧
      o.interpolated = marks.contains '$' ∧ o.quotes = quotesBefore r ∧
      o.body.read =
        marks ++ '"' :: r.take ((if 3 ≤ quotesBefore r then quotesBefore r else 1) - 1) ∧
      o.body.rest = r.drop ((if 3 ≤ quotesBefore r then quotesBefore r else 1) - 1) := by
  have hmarks := h.takeWhile_isMark
  have hquote := h.dropWhile_isMark
  unfold Opening.of?
  split
  case h_1 r' heq =>
    obtain ⟨-, rfl⟩ := List.cons.inj (heq.symm.trans hquote)
    simp only [hmarks, h.areOpen, if_true]
    exact ⟨_, rfl, rfl, rfl, rfl, rfl, rfl⟩
  case h_2 hno => exact absurd hquote (hno r)

theorem Opens.of_of? {cs : List Char} {o : Opening cs} (h : Opening.of? cs = some o) :
    ∃ marks r, Opens cs marks r := by
  unfold Opening.of? at h
  split at h
  case h_1 r heq =>
    dsimp only at h
    split at h
    case isTrue hopen =>
      refine ⟨cs.takeWhile isMark, r, ?_, ?_, hopen⟩
      · rw [← heq, List.takeWhile_append_dropWhile]
      · exact fun c => List.mem_takeWhile_imp
    case isFalse => cases h
  case h_2 => cases h

theorem Opening.of?_eq_none_of_lineWithin {cs cs' : List Char} (h : LineWithin cs' cs)
    (ho : Opening.of? cs = none) : Opening.of? cs' = none := by
  cases ho' : Opening.of? cs' with
  | none => rfl
  | some o =>
    obtain ⟨marks, r, hopens⟩ := Opens.of_of? ho'
    have hfront : marks ++ ['"'] <+: cs' := ⟨r, by rw [hopens.spell, ← List.append_cons]⟩
    obtain ⟨more, hmore⟩ := h.isPrefix_of hopens.newline_notMem hfront
    have hlong : Opens cs marks more :=
      { hopens with spell := by rw [← hmore, ← List.append_cons] }
    obtain ⟨o, hsome, -⟩ := hlong.exists_opening
    rw [ho] at hsome
    cases hsome

/-- The text starts with a string literal, which reads `a` and leaves `b`. -/
def ReadsString (cs a b : List Char) : Prop :=
  ∃ o, Opening.of? cs = some o ∧ Reads o.close a b

/-- How the literal goes on after its opening. -/
def ReadsAfter (cs marks r a b : List Char) : Prop :=
  if 3 ≤ quotesBefore r then
    ∃ a₁, a = marks ++ '"' :: (r.takeWhile (· == '"') ++ a₁) ∧
      Reads (rawRest cs (quotesBefore r) (r.dropWhile (· == '"'))) a₁ b
  else
    ∃ a₁, a = marks ++ '"' :: a₁ ∧
      Reads (quotedRest cs (marks.contains '@') (marks.contains '$') r) a₁ b

theorem Opens.readsString_iff {cs marks r a b : List Char} (h : Opens cs marks r) :
    ReadsString cs a b ↔ ReadsAfter cs marks r a b := by
  obtain ⟨o, ho, hverbatim, hinterpolated, hquotes, hread, hrest⟩ := h.exists_opening
  have hclose : ReadsString cs a b ↔ Reads o.close a b := by
    simp only [ReadsString, ho, Option.some.injEq, exists_eq_left']
  rw [hclose, Opening.close, ReadsAfter, hquotes]
  by_cases hraw : 3 ≤ quotesBefore r
  · rw [if_pos hraw, quotesBefore, Nat.add_sub_cancel_left] at hread hrest
    rw [if_pos hraw, if_pos hraw, Reads.into_iff, hread, hrest, take_length_takeWhile,
      drop_length_takeWhile]
    simp only [List.append_assoc, List.cons_append]
  · rw [if_neg hraw, Nat.sub_self] at hread hrest
    rw [if_neg hraw, if_neg hraw, Reads.into_iff, hread, hrest, hverbatim, hinterpolated,
      List.drop_zero, List.take_zero]
    simp only [List.append_assoc, List.cons_append, List.nil_append]

theorem readsString_local_of {cs : List Char}
    (hquoted : ∀ start start' verbatim interpolated ds, ds.length < cs.length →
      Local (quotedRest start verbatim interpolated) (quotedRest start' verbatim interpolated) ds)
    {a b b' : List Char} (h : ReadsString cs a b) (hb : LineWithin b' b) :
    ReadsString (a ++ b') a b' := by
  obtain ⟨marks, r, hopens⟩ : ∃ marks r, Opens cs marks r := by
    obtain ⟨o, ho, -⟩ := h
    exact Opens.of_of? ho
  have hafter := hopens.readsString_iff.mp h
  unfold ReadsAfter at hafter
  split at hafter
  case isTrue hraw =>
    obtain ⟨a₁, rfl, h₁⟩ := hafter
    -- The fence stays as long as it was, since something other than a quote is read after it.
    have hquotes : ∀ c ∈ r.takeWhile (· == '"'), (c == '"') = true :=
      fun c => List.mem_takeWhile_imp
    have hfence : ∀ c, (a₁ ++ b').head? = some c → (c == '"') = false := by
      apply (hb.append_left a₁).head_fails (by decide)
      rw [h₁.append_eq]
      exact head_dropWhile_fails (· == '"') r
    have htake := takeWhile_append_of_fails hquotes hfence
    have hdrop := dropWhile_append_of_fails hquotes hfence
    have hopens' : Opens (marks ++ '"' :: (r.takeWhile (· == '"') ++ a₁) ++ b') marks
        (r.takeWhile (· == '"') ++ (a₁ ++ b')) :=
      { hopens with spell := by simp only [List.append_assoc, List.cons_append] }
    apply hopens'.readsString_iff.mpr
    have hsame : quotesBefore (r.takeWhile (· == '"') ++ (a₁ ++ b')) = quotesBefore r :=
      congrArg (1 + List.length ·) htake
    rw [ReadsAfter, hsame, htake, hdrop, if_pos hraw]
    exact ⟨a₁, rfl, rawRest_local _ _ (by omega) _ a₁ b b' h₁ hb⟩
  case isFalse hquote =>
    obtain ⟨a₁, rfl, h₁⟩ := hafter
    have hshorter : r.length < cs.length := by
      rw [hopens.spell, List.length_append, List.length_cons]
      omega
    -- There may be fewer quotes than before, but not more.
    have hfewer : quotesBefore (a₁ ++ b') ≤ quotesBefore r := by
      rw [← h₁.append_eq]
      exact Nat.add_le_add_left ((hb.append_left a₁).length_takeWhile_le (by decide)) 1
    have hopens' : Opens (marks ++ '"' :: a₁ ++ b') marks (a₁ ++ b') :=
      { hopens with spell := by simp only [List.append_assoc, List.cons_append] }
    apply hopens'.readsString_iff.mpr
    rw [ReadsAfter, if_neg (by omega)]
    exact ⟨a₁, rfl, hquoted _ _ _ _ r hshorter a₁ b b' h₁ hb⟩

theorem holeRest_local_of {start start' : List Char} {cs : List Char}
    (hstring : ∀ a b b', ReadsString cs a b → LineWithin b' b → ReadsString (a ++ b') a b')
    (hhole : ∀ depth ds, ds.length < cs.length →
      Local (holeRest start depth) (holeRest start' depth) ds) (depth : Nat) :
    Local (holeRest start depth) (holeRest start' depth) cs := by
  intro a b b' h hb
  -- The cases of `holeRest`. In each the text is read up to a shorter one, which `hhole` is about.
  cases ho : Opening.of? cs with
  | some o =>
    rw [holeRest_literal start depth ho] at h
    obtain ⟨a₁, a₂, rfl, h₁, h₂⟩ := Reads.then_iff.mp h
    have hshort : LineWithin (a₂ ++ b') (a₂ ++ b) := hb.append_left a₂
    obtain ⟨o', ho', h₁'⟩ := hstring a₁ (a₂ ++ b) (a₂ ++ b') ⟨o, ho, h₁⟩ hshort
    have h₂' := hhole depth (a₂ ++ b) h₁.length_lt a₂ b b' h₂ hb
    rw [List.append_assoc, holeRest_literal start' depth ho']
    exact Reads.then_iff.mpr ⟨a₁, a₂, rfl, h₁', h₂'⟩
  | none =>
    cases cs with
    | nil =>
      rw [holeRest_nil] at h
      exact ((Reads.error_iff _).mp h).elim
    | cons c r =>
      by_cases hopen : c = '{'
      · subst hopen
        rw [holeRest_open] at h
        obtain ⟨a₁, rfl, hr⟩ := (Reads.cons_iff _).mp h
        rw [List.cons_append, holeRest_open]
        exact (Reads.cons_iff _).mpr ⟨a₁, rfl, hhole _ r (by grind) a₁ b b' hr hb⟩
      by_cases hshut : c = '}'
      · subst hshut
        cases depth with
        | zero =>
          rw [holeRest_end] at h
          obtain ⟨rfl, rfl⟩ := (Reads.ok_iff _).mp h
          change Reads (holeRest start' 0 ('}' :: b')) _ b'
          rw [holeRest_end]
          exact (Reads.ok_iff _).mpr ⟨rfl, rfl⟩
        | succ depth =>
          rw [holeRest_shut] at h
          obtain ⟨a₁, rfl, hr⟩ := (Reads.cons_iff _).mp h
          rw [List.cons_append, holeRest_shut]
          exact (Reads.cons_iff _).mpr ⟨a₁, rfl, hhole _ r (by grind) a₁ b b' hr hb⟩
      by_cases hquote : c = '\''
      · subst hquote
        rw [holeRest_char] at h
        obtain ⟨a₁, a₂, rfl, h₁, h₂⟩ := (Reads.cons_then_iff _).mp h
        have hshort : LineWithin (a₂ ++ b') (a₂ ++ b) := hb.append_left a₂
        have h₂' := hhole depth (a₂ ++ b) (Nat.lt_succ_of_lt h₁.length_lt) a₂ b b' h₂ hb
        rw [List.cons_append, List.append_assoc, holeRest_char]
        exact (Reads.cons_then_iff _).mpr
          ⟨a₁, a₂, rfl, charRest_local _ _ r a₁ (a₂ ++ b) (a₂ ++ b') h₁ hshort, h₂'⟩
      rw [holeRest_plain start depth ho ⟨hopen, hshut, hquote⟩] at h
      obtain ⟨a₁, rfl, hr⟩ := (Reads.cons_iff c).mp h
      -- No literal may open here in the other text either; it is on the same line.
      have hshort : LineWithin (c :: (a₁ ++ b')) (c :: r) := by
        rw [← hr.append_eq]
        exact (hb.append_left a₁).cons c
      rw [List.cons_append, holeRest_plain start' depth
        (Opening.of?_eq_none_of_lineWithin hshort ho) ⟨hopen, hshut, hquote⟩]
      exact (Reads.cons_iff c).mpr ⟨a₁, rfl, hhole _ r (by grind) a₁ b b' hr hb⟩

/-- All scanners of string literals are local. -/
structure LiteralsLocal (cs : List Char) : Prop where
  quoted : ∀ start start' verbatim interpolated,
    Local (quotedRest start verbatim interpolated) (quotedRest start' verbatim interpolated) cs
  hole : ∀ start start' depth, Local (holeRest start depth) (holeRest start' depth) cs
  string : ∀ a b b', ReadsString cs a b → LineWithin b' b → ReadsString (a ++ b') a b'

theorem literals_local (cs : List Char) : LiteralsLocal cs := by
  induction hn : cs.length using Nat.strong_induction_on generalizing cs with
  | _ n ih =>
    have hshorter : ∀ ds : List Char, ds.length < cs.length → LiteralsLocal ds :=
      fun ds hds => ih ds.length (hn ▸ hds) ds rfl
    -- A hole may go on with a literal that starts right there, so literals come before holes.
    have hstring : ∀ a b b', ReadsString cs a b → LineWithin b' b → ReadsString (a ++ b') a b' :=
      fun a b b' => readsString_local_of fun _ _ _ _ ds hds => (hshorter ds hds).quoted _ _ _ _
    refine ⟨fun start start' verbatim interpolated => ?_, fun start start' depth => ?_, hstring⟩
    · apply quotedRest_local_of
      · exact fun ds hds => (hshorter ds hds).quoted _ _ _ _
      · exact fun ds hds => (hshorter ds hds).hole _ _ _
    · exact holeRest_local_of hstring (fun depth ds hds => (hshorter ds hds).hole _ _ _) depth

end ClassSugar.Token
