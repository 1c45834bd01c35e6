import ClassSugar.Desugar.Renaming
import ClassSugar.Proofs.LiteralForms

/-!
# The words of the scanner that renames

The scanner that renames identifiers knows words, literals and nothing else of a text. Here its
single steps are put together to steps over whole words and literals.

A word is copied or replaced as a whole (`code_word`), so a scan may start inside a word that is
copied (`copyWord`). A literal without holes is left where it ends (`literal_body`). In a text
without quotes some words are replaced, and nothing else changes (`Alike`,
`exists_code_of_no_quotes`).
-/

namespace ClassSugar

open ClassSugar.Text

/-! ### Characters -/

namespace Text

theorem isAlpha_iff {c : Char} :
    c.isAlpha = true ↔ 65 ≤ c.toNat ∧ c.toNat ≤ 90 ∨ 97 ≤ c.toNat ∧ c.toNat ≤ 122 := by
  change (decide (c.val ≥ 'A'.val ∧ c.val ≤ 'Z'.val) ||
    (decide (c.val ≥ 'a'.val) && decide (c.val ≤ 'z'.val))) = true ↔ _
  simp only [Bool.or_eq_true, Bool.and_eq_true, decide_eq_true_eq, ge_iff_le,
    UInt32.le_iff_toNat_le]
  rfl

theorem isWordChar_of_isAlphanum {c : Char} (h : c.isAlphanum = true) : isWordChar c = true := by
  have hclass : c.isAlpha = true ∨ c.isDigit = true := Bool.or_eq_true_iff.mp h
  have hsmall : c.toNat < 0x80 := by
    rw [isAlpha_iff, Char.isDigit_iff_toNat] at hclass
    have hnine : '9'.toNat = 57 := rfl
    omega
  simp only [isWordChar, isLetter, isNumeral, if_pos hsmall, Bool.or_eq_true]
  exact .inl hclass

/-- A digit starts no word. -/
theorem isWordStart_of_isDigit {c : Char} (h : c.isDigit = true) : isWordStart c = false := by
  obtain ⟨-, hle⟩ := Char.isDigit_iff_toNat.mp h
  have hsmall : c.toNat < 0x80 := Nat.lt_of_le_of_lt hle (by decide)
  have halpha : c.isAlpha = false := by
    refine Bool.eq_false_iff.mpr fun halpha => ?_
    rw [isAlpha_iff] at halpha
    have hnine : '9'.toNat = 57 := rfl
    omega
  have hunderscore : c ≠ '_' := by
    rintro rfl
    cases h
  simp [isWordStart, isLetter, hsmall, halpha, hunderscore]

/-- A blank stands in no word. -/
theorem isWordPart_of_isBlank {c : Char} (h : isBlank c = true) :
    Renaming.isWordPart c = false := by
  have hall : ∀ n ∈ [0x09, 0x0A, 0x0B, 0x0C, 0x0D, 0x20, 0x85, 0xA0, 0x1680, 0x2000, 0x2001, 0x2002,
      0x2003, 0x2004, 0x2005, 0x2006, 0x2007, 0x2008, 0x2009, 0x200A, 0x2028, 0x2029, 0x202F,
      0x205F, 0x3000], Renaming.isWordPart (Char.ofNat n) = false := by
    decide +kernel
  have hmem : c.toNat ∈ [0x09, 0x0A, 0x0B, 0x0C, 0x0D, 0x20, 0x85, 0xA0, 0x1680, 0x2000, 0x2001,
      0x2002, 0x2003, 0x2004, 0x2005, 0x2006, 0x2007, 0x2008, 0x2009, 0x200A, 0x2028, 0x2029, 0x202F,
      0x205F, 0x3000] := by
    simp only [isBlank, Bool.or_eq_true, Bool.and_eq_true, decide_eq_true_eq, beq_iff_eq] at h
    simp only [List.mem_cons, List.not_mem_nil, or_false]
    omega
  have hpart := hall _ hmem
  rwa [Char.ofNat_toNat] at hpart

theorem isBlank_of_isWordPart {c : Char} (hc : Renaming.isWordPart c = true) : isBlank c = false := by
  refine Bool.eq_false_iff.mpr fun hblank => ?_
  rw [isWordPart_of_isBlank hblank] at hc
  cases hc

end Text

namespace Renaming

open ClassSugar.Token

/-! ### Steps of the scanner -/

variable {f : List Char → List Char} {c : Char} {r w : List Char}

theorem code_string (r : List Char) :
    code f w ('"' :: r) = literal f '"' (Marks.ofReversed w) ('"' :: w) r := by
  rw [code.eq_def]
  exact if_pos rfl

theorem code_char (r : List Char) :
    code f w ('\'' :: r) = literal f '\'' ⟨false, false⟩ ('\'' :: w) r := by
  rw [code.eq_def]
  exact (if_neg (by decide)).trans (if_pos rfl)

theorem code_word (hc : isWordPart c = true) :
    code f w (c :: r) =
      code f ((if endsWithDot w then (c :: r).takeWhile isWordPart
        else f ((c :: r).takeWhile isWordPart)).reverse ++ w) ((c :: r).dropWhile isWordPart) := by
  have hstring : c ≠ '"' := by
    rintro rfl
    exact absurd hc (by decide)
  have hchar : c ≠ '\'' := by
    rintro rfl
    exact absurd hc (by decide)
  rw [code.eq_def]
  simp only [hstring, hchar, hc, if_true, if_false, List.takeWhile_cons_of_pos,
    List.dropWhile_cons_of_pos]

/-- What is neither a quote nor in a word. -/
def isPlain (c : Char) : Bool :=
  !isWordPart c && c != '"' && c != '\''

theorem isWordPart_of_isPlain (hc : isPlain c = true) : isWordPart c = false := by
  simp only [isPlain, Bool.and_eq_true, Bool.not_eq_true'] at hc
  exact hc.1.1

theorem code_plain (hc : isPlain c = true) :
    code f w (c :: r) = code f (c :: w) r := by
  simp only [isPlain, Bool.and_eq_true, Bool.not_eq_true', bne_iff_ne] at hc
  rw [code.eq_def]
  simp only [hc, if_false, Bool.false_eq_true]

theorem code_plain_append {s : List Char} (hs : ∀ c ∈ s, isPlain c = true) (cs : List Char) :
    code f w (s ++ cs) = code f (s.reverse ++ w) cs := by
  induction s generalizing w with
  | nil => rfl
  | cons c s ih =>
    obtain ⟨hc, hs⟩ := List.forall_mem_cons.mp hs
    rw [List.cons_append, code_plain hc, ih hs, List.reverse_cons, List.append_assoc]
    rfl

/-- The scan from inside a word that is copied. -/
def copyWord (f : List Char → List Char) (w cs : List Char) : List Char :=
  code f ((cs.takeWhile isWordPart).reverse ++ w) (cs.dropWhile isWordPart)

theorem copyWord_of_fails {cs : List Char} (h : ∀ c, cs.head? = some c → isWordPart c = false) :
    copyWord f w cs = code f w cs := by
  have htake : cs.takeWhile isWordPart = [] := takeWhile_append_of_fails (List.forall_mem_nil _) h
  have hdrop : cs.dropWhile isWordPart = cs := dropWhile_append_of_fails (List.forall_mem_nil _) h
  rw [copyWord, htake, hdrop]
  rfl

theorem copyWord_append {u : List Char} (hu : ∀ c ∈ u, isWordPart c = true) (cs : List Char) :
    copyWord f w (u ++ cs) = copyWord f (u.reverse ++ w) cs := by
  unfold copyWord
  rw [List.takeWhile_append_of_pos hu, List.dropWhile_append_of_pos hu, List.reverse_append,
    List.append_assoc]

/-- A word is copied after a dot, and if it is its own image. -/
theorem code_eq_copyWord {cs : List Char}
    (h : endsWithDot w = true ∨ f (cs.takeWhile isWordPart) = cs.takeWhile isWordPart) :
    code f w cs = copyWord f w cs := by
  by_cases hhead : ∀ c, cs.head? = some c → isWordPart c = false
  · exact (copyWord_of_fails hhead).symm
  · cases cs with
    | nil => exact absurd (fun c hc => nomatch hc) hhead
    | cons c r =>
      have hc : isWordPart c = true := by simpa using hhead
      have himage : (if endsWithDot w then (c :: r).takeWhile isWordPart
          else f ((c :: r).takeWhile isWordPart)) = (c :: r).takeWhile isWordPart := by
        rcases h with hdot | hfix
        · rw [if_pos hdot]
        · rw [hfix, ite_self]
      rw [code_word hc, himage, copyWord]

theorem endsWithDot_cons_of_isBlank (hc : isBlank c = true) :
    endsWithDot (c :: w) = endsWithDot w := by
  unfold endsWithDot
  rw [List.dropWhile_cons_of_pos hc]

theorem endsWithDot_cons (hc : isBlank c = false) :
    endsWithDot (c :: w) = (c == '.') := by
  unfold endsWithDot
  rw [List.dropWhile_cons_of_neg (by rw [hc]; nofun)]
  rfl

theorem endsWithDot_of_isWordPart (hc : isWordPart c = true) :
    endsWithDot (c :: w) = false := by
  rw [endsWithDot_cons (isBlank_of_isWordPart hc), beq_eq_false_iff_ne]
  rintro rfl
  exact absurd hc (by decide)

/-- Words with dots between them are copied from inside the first of them on: each later one stands
after a dot. -/
theorem copyWord_dotted {s : List Char} (hs : ∀ c ∈ s, isWordPart c = true ∨ c = '.')
    (cs : List Char) : copyWord f w (s ++ cs) = copyWord f (s.reverse ++ w) cs := by
  induction s generalizing w with
  | nil => rfl
  | cons c s ih =>
    obtain ⟨hc, hs⟩ := List.forall_mem_cons.mp hs
    have hstep : copyWord f w (c :: (s ++ cs)) = copyWord f (c :: w) (s ++ cs) := by
      rcases hc with hc | rfl
      · exact copyWord_append (List.forall_mem_singleton.mpr hc) (s ++ cs)
      · rw [copyWord_of_fails (by rintro c ⟨⟩; decide), code_plain (by decide)]
        exact code_eq_copyWord (.inl rfl)
    rw [List.cons_append, hstep, ih hs, List.reverse_cons, List.append_assoc]
    rfl

/-- The scanner leaves a literal where it ends. -/
theorem literal_body {quote : Char} (hquote : quote ≠ '\\') {verbatim : Bool} {a b : List Char}
    (h : LiteralBody quote verbatim a) (hnext : verbatim = true → b.head? ≠ some quote) :
    literal f quote ⟨false, verbatim⟩ w (a ++ b) = code f (a.reverse ++ w) b := by
  induction h generalizing w with
  | close =>
    rw [List.singleton_append, literal.eq_def]
    cases b with
    | nil => simp [hquote, code]
    | cons e r =>
      have hother : ¬(verbatim = true ∧ e = quote) := by
        rintro ⟨hv, rfl⟩
        exact hnext hv rfl
      simp [hquote, hother]
  | quotes hverbatim h ih | escape d hverbatim h ih =>
    subst hverbatim
    rw [List.cons_append, List.cons_append, literal.eq_def]
    simp [ih]
  | @plain c a hother hescape h ih =>
    have hslash : ¬(c = '\\' ∧ ¬verbatim = true) := by
      rintro ⟨hc, hv⟩
      exact (hescape (Bool.eq_false_iff.mpr hv)).2 hc
    rw [List.cons_append, literal.eq_def]
    simp only [hslash, hother, Bool.false_eq_true, false_and, if_false]
    rw [ih, List.reverse_cons, List.append_assoc]
    rfl

/-! ### Words put in the place of words -/

/-- The text is one identifier. -/
def IsName (s : List Char) : Prop :=
  ∃ c r, s = c :: r ∧ Piece.startsName c r = true ∧ ∀ d ∈ r, isWordChar d = true

instance (s : List Char) : Decidable (IsName s) :=
  match s with
  | [] => isFalse fun ⟨_, _, h, _⟩ => List.cons_ne_nil _ _ h.symm
  | c :: r =>
    decidable_of_iff (Piece.startsName c r = true ∧ r.all isWordChar = true)
      ⟨fun h => ⟨c, r, rfl, h.1, List.all_eq_true.mp h.2⟩, fun ⟨_, _, heq, hname, hr⟩ => by
        obtain ⟨rfl, rfl⟩ := List.cons.inj heq
        exact ⟨hname, List.all_eq_true.mpr hr⟩⟩

namespace IsName

variable {s : List Char}

theorem ne_nil (h : IsName s) : s ≠ [] := by
  obtain ⟨c, r, rfl, -⟩ := h
  exact List.cons_ne_nil c r

theorem isWordPart (h : IsName s) : ∀ c ∈ s, isWordPart c = true := by
  obtain ⟨c, r, rfl, hname, hr⟩ := h
  refine List.forall_mem_cons.mpr ⟨?_, fun d hd => ?_⟩
  · simp only [Piece.startsName, Bool.or_eq_true, Bool.and_eq_true] at hname
    simp only [Renaming.isWordPart, Bool.or_eq_true]
    exact hname.imp isWordChar_of_isWordStart And.left
  · simp only [Renaming.isWordPart, hr d hd, Bool.true_or]

/-- The mark of an identifier stands in front only. -/
theorem notMem_tail (h : IsName (c :: r)) : '@' ∉ r := by
  obtain ⟨_, _, heq, -, hr⟩ := h
  obtain ⟨rfl, rfl⟩ := List.cons.inj heq
  exact fun hmem => absurd (hr _ hmem) (by decide)

theorem exists_isWordChar (h : IsName s) : ∃ c, s.getLast? = some c ∧ isWordChar c = true := by
  obtain ⟨c, r, rfl, hname, hr⟩ := h
  cases r with
  | nil =>
    simp only [Piece.startsName, startsWithWord, Bool.and_false, Bool.or_false] at hname
    exact ⟨c, rfl, isWordChar_of_isWordStart hname⟩
  | cons d r =>
    refine ⟨(d :: r).getLast (List.cons_ne_nil d r), ?_, hr _ (List.getLast_mem _)⟩
    rw [List.getLast?_cons_cons, List.getLast?_eq_getLast_of_ne_nil]

/-- The word at the front of a text is an identifier, marks included. -/
theorem of_run (h : Piece.startsName c r = true) :
    IsName (c :: r.takeWhile isWordChar) := by
  refine ⟨c, _, rfl, ?_, fun d hd => List.mem_takeWhile_imp hd⟩
  have hread := Piece.startsName_read (r := r) rfl h []
  rwa [List.append_nil] at hread

/-- No identifier starts with a digit. -/
theorem head_isDigit (h : IsName s) : ∀ c, s.head? = some c → c.isDigit = false := by
  obtain ⟨c, r, rfl, hname, -⟩ := h
  rintro _ ⟨⟩
  refine Bool.eq_false_iff.mpr fun hdigit => ?_
  simp only [Piece.startsName, isWordStart_of_isDigit hdigit, Bool.false_or, Bool.and_eq_true,
    beq_iff_eq] at hname
  rw [hname.1] at hdigit
  cases hdigit

end IsName

/-- The first text is the second one with `new` at some of the places where `old` stands. -/
inductive Alike (old new : List Char) : List Char → List Char → Prop where
  | nil : Alike old new [] []
  | cons (c : Char) {a' a : List Char} (h : Alike old new a' a) : Alike old new (c :: a') (c :: a)
  | word {a' a : List Char} (h : Alike old new a' a) : Alike old new (new ++ a') (old ++ a)

namespace Alike

variable {old new : List Char} {a' a b' b : List Char}

theorem append_left (s : List Char) (h : Alike old new b' b) : Alike old new (s ++ b') (s ++ b) := by
  induction s with
  | nil => exact h
  | cons c s ih => exact .cons c ih

theorem refl (s : List Char) : Alike old new s s := by
  have h : Alike old new (s ++ []) (s ++ []) := append_left s .nil
  rwa [List.append_nil] at h

theorem append (ha : Alike old new a' a) (hb : Alike old new b' b) :
    Alike old new (a' ++ b') (a ++ b) := by
  induction ha with
  | nil => exact hb
  | cons c h ih => exact .cons c ih
  | word h ih =>
    rw [List.append_assoc, List.append_assoc]
    exact .word ih

/-- Whether a text ends with a dot depends on the texts before it only in this respect. -/
theorem endsWithDot_eq (hold : IsName old) (hnew : IsName new) (h : Alike old new a' a)
    {w' w : List Char} (hw : endsWithDot w' = endsWithDot w) :
    endsWithDot (a'.reverse ++ w') = endsWithDot (a.reverse ++ w) := by
  have hname : ∀ {s : List Char} (w : List Char), IsName s → endsWithDot (s.reverse ++ w) = false := by
    intro s w hs
    obtain ⟨c, r, hr⟩ := List.exists_cons_of_ne_nil (List.reverse_ne_nil_iff.mpr hs.ne_nil)
    have hc : c ∈ s := List.mem_reverse.mp (hr ▸ List.mem_cons_self)
    rw [hr]
    exact endsWithDot_of_isWordPart (hs.isWordPart c hc)
  induction h generalizing w' w with
  | nil => exact hw
  | cons c h ih =>
    simp only [List.reverse_cons, List.append_assoc, List.singleton_append]
    apply ih
    cases hc : isBlank c with
    | true => rw [endsWithDot_cons_of_isBlank hc, endsWithDot_cons_of_isBlank hc, hw]
    | false => rw [endsWithDot_cons hc, endsWithDot_cons hc]
  | word h ih =>
    simp only [List.reverse_append, List.append_assoc]
    exact ih ((hname w' hnew).trans (hname w hold).symm)

end Alike

section Scan

/-- The text is a word, as the scanner cuts them. -/
structure IsWord (u : List Char) : Prop where
  ne_nil : u ≠ []
  parts : ∀ c ∈ u, isWordPart c = true

theorem IsName.isWord {u : List Char} (h : IsName u) : IsWord u :=
  ⟨h.ne_nil, h.isWordPart⟩

theorem code_append_word {f : List Char → List Char} {w u b : List Char} (hu : IsWord u)
    (hb : ∀ d, b.head? = some d → isWordPart d = false) :
    code f w (u ++ b) = code f ((if endsWithDot w then u else f u).reverse ++ w) b := by
  have htake := takeWhile_append_of_fails hu.parts hb
  have hdrop := dropWhile_append_of_fails hu.parts hb
  obtain ⟨c, u, rfl⟩ := List.exists_cons_of_ne_nil hu.ne_nil
  rw [List.cons_append] at htake hdrop ⊢
  rw [code_word (hu.parts c List.mem_cons_self), htake, hdrop]

variable {old new : String}

/-- One word is copied or replaced. -/
theorem exists_code_of_word {u b : List Char} (hne : u ≠ []) (hu : ∀ c ∈ u, isWordPart c = true)
    (hb : ∀ d, b.head? = some d → isWordPart d = false) :
    ∃ image, (image = u ∨ u = old.toList ∧ image = new.toList) ∧
      code (single old new) w (u ++ b) = code (single old new) (image.reverse ++ w) b := by
  refine ⟨if endsWithDot w then u else single old new u, ?_, code_append_word ⟨hne, hu⟩ hb⟩
  unfold single
  split
  · exact .inl rfl
  · split
    · exact .inr ⟨‹_›, rfl⟩
    · exact .inl rfl

/-- In a text without quotes, words are put in the place of words. -/
theorem exists_code_of_no_quotes (s : List Char) (hs : ∀ c ∈ s, c ≠ '"' ∧ c ≠ '\'') {cs : List Char}
    (hend : ∀ c, s.getLast? = some c → isWordPart c = true →
      ∀ d, cs.head? = some d → isWordPart d = false) :
    ∃ s', Alike old.toList new.toList s' s ∧
      code (single old new) w (s ++ cs) = code (single old new) (s'.reverse ++ w) cs := by
  -- One step of the scanner takes a whole word, so the induction is on the length.
  induction hn : s.length using Nat.strong_induction_on generalizing s w with
  | _ n ih =>
    cases s with
    | nil => exact ⟨[], .nil, rfl⟩
    | cons c r =>
      have hlast : ∀ v, v <:+ c :: r → ∀ x, v.getLast? = some x → (c :: r).getLast? = some x := by
        rintro v ⟨u, huv⟩ x hx
        rw [← huv, List.getLast?_append, hx, Option.some_or]
      by_cases hc : isWordPart c = true
      · -- The word ends where it ends in the text alone.
        have hsplit : (c :: r).takeWhile isWordPart ++ (c :: r).dropWhile isWordPart = c :: r :=
          List.takeWhile_append_dropWhile
        generalize hu : (c :: r).takeWhile isWordPart = u at hsplit
        generalize hv : (c :: r).dropWhile isWordPart = v at hsplit
        have hparts : ∀ x ∈ u, isWordPart x = true := by
          rw [← hu]
          exact fun x hx => List.mem_takeWhile_imp hx
        have hstop : ∀ d, (v ++ cs).head? = some d → isWordPart d = false := by
          cases v with
          | nil =>
            rw [List.append_nil] at hsplit
            have hne : u ≠ [] := hsplit ▸ List.cons_ne_nil c r
            refine hend (u.getLast hne) ?_ (hparts _ (List.getLast_mem hne))
            rw [← hsplit, List.getLast?_eq_getLast_of_ne_nil hne]
          | cons d v =>
            rintro _ ⟨⟩
            exact head_dropWhile_fails isWordPart (c :: r) d (hv ▸ rfl)
        have hshort : v.length < n := by
          rw [← hn, ← hv, List.dropWhile_cons_of_pos hc]
          exact Nat.lt_succ_of_le (List.dropWhile_suffix _).length_le
        have hsuffix : v <:+ c :: r := ⟨u, hsplit⟩
        have hne : u ≠ [] := by
          rw [← hu, List.takeWhile_cons_of_pos hc]
          exact List.cons_ne_nil _ _
        obtain ⟨image, himage, hcode⟩ : ∃ image, (image = u ∨ u = old.toList ∧ image = new.toList) ∧
            code (single old new) w (u ++ (v ++ cs)) =
              code (single old new) (image.reverse ++ w) (v ++ cs) :=
          exists_code_of_word hne hparts hstop
        obtain ⟨v', halike, hrest⟩ := ih v.length hshort (w := image.reverse ++ w) v
          (fun x hx => hs x (hsuffix.subset hx)) (fun x hx => hend x (hlast v hsuffix x hx)) rfl
        refine ⟨image ++ v', ?_, ?_⟩
        · rw [← hsplit]
          rcases himage with rfl | ⟨rfl, rfl⟩
          · exact halike.append_left image
          · exact halike.word
        · rw [← hsplit, List.append_assoc, hcode, hrest, List.reverse_append, List.append_assoc]
      · have hquotes := hs c List.mem_cons_self
        have hplain : isPlain c = true := by
          simp [isPlain, Bool.eq_false_iff.mpr hc, hquotes.1, hquotes.2]
        have hsuffix : r <:+ c :: r := List.suffix_cons c r
        obtain ⟨r', halike, hrest⟩ := ih r.length (hn ▸ Nat.lt_succ_self _) (w := c :: w) r
          (fun x hx => hs x (hsuffix.subset hx)) (fun x hx => hend x (hlast r hsuffix x hx)) rfl
        refine ⟨c :: r', .cons c halike, ?_⟩
        rw [List.cons_append, code_plain hplain, hrest, List.reverse_cons, List.append_assoc]
        rfl

end Scan

end Renaming

end ClassSugar
