import ClassSugar.Proofs.LiteralLocality

/-!
# Pieces are cut no further than they have to be

Numbers, words and operators are local as literals and comments are. A piece that is found in a text
is found again if what follows shows no more than before (`Piece.next_local`); a run of blanks is
an exception, since it goes on over line breaks. So a sequence of pieces is found again in the text
that it spells (`pieces_flatMap_text`, `exists_pieces_flatMap_text`).

What stands before a piece matters only to a directive, so pieces that start with a token are cut
alike wherever they stand (`pieces_of_head_isToken`).
-/

namespace ClassSugar.Token

open ClassSugar.Text

section Cuts

variable {lineStart : Bool} {c : Char} {r r' a b b' : List Char} {kind : Piece.Kind}
  {t : Cut (c :: r)}

/-! ### Numbers, words and operators -/

/-- The first character of a text is read, and what else is read stands at the front of the rest. -/
theorem exists_read_eq_cons (t : Cut (c :: r)) :
    ∃ a, t.read = c :: a ∧ a ++ t.rest = r := by
  obtain ⟨d, a, hread⟩ := List.exists_cons_of_ne_nil t.read_ne_nil
  have hcs := t.read_append_rest
  rw [hread] at hcs
  obtain ⟨rfl, hr⟩ := List.cons.inj hcs
  exact ⟨a, hread, hr⟩

/-- If what follows shows no more than before, so does the text. -/
theorem lineWithin_of_read (ha : t.read = c :: a) (hb : LineWithin b' t.rest) :
    LineWithin (a ++ b') r := by
  obtain ⟨a', ha', hr⟩ := exists_read_eq_cons t
  obtain ⟨-, rfl⟩ := List.cons.inj (ha.symm.trans ha')
  rw [← hr]
  exact hb.append_left a

/-- A run of characters ends where the test fails. -/
theorem run_of_fails {p : Char → Bool} (ha : (Cut.run p c r).read = c :: a)
    (hfail : ∀ d, b'.head? = some d → p d = false) :
    (Cut.run p c (a ++ b')).read = c :: a ∧ (Cut.run p c (a ++ b')).rest = b' := by
  obtain ⟨-, rfl⟩ := List.cons.inj ha
  have hpass : ∀ d ∈ r.takeWhile p, p d = true := fun d => List.mem_takeWhile_imp
  refine ⟨congrArg (c :: ·) ?_, ?_⟩
  · exact takeWhile_append_of_fails hpass hfail
  · exact dropWhile_append_of_fails hpass hfail

theorem run_local {p : Char → Bool} (hbreak : p '\n' = false) (ha : (Cut.run p c r).read = c :: a)
    (hb : LineWithin b' (Cut.run p c r).rest) :
    (Cut.run p c (a ++ b')).read = c :: a ∧ (Cut.run p c (a ++ b')).rest = b' :=
  run_of_fails ha (hb.head_fails hbreak (head_dropWhile_fails p r))

theorem startsWithDigit_of_lineWithin (h : LineWithin r' r) (hdigit : startsWithDigit r' = true) :
    startsWithDigit r = true := by
  cases r' with
  | nil => cases hdigit
  | cons c r' =>
    have hc : c ≠ '\n' := by
      rintro rfl
      cases hdigit
    obtain ⟨more, rfl, -⟩ := h.exists_cons hc
    exact hdigit

theorem isNumberPart_of_lineWithin (h : LineWithin r' r) (hpart : isNumberPart c r' = true) :
    isNumberPart c r = true := by
  simp only [isNumberPart, Bool.or_eq_true, Bool.and_eq_true] at hpart ⊢
  exact hpart.imp_right (And.imp_right (startsWithDigit_of_lineWithin h))

/-- No number goes on at the start of a text. -/
def EndsNumber (b : List Char) : Prop :=
  ∀ c r, b = c :: r → isNumberPart c r = false

theorem EndsNumber.of_lineWithin (hb : EndsNumber b) (h : LineWithin b' b) :
    EndsNumber b' := by
  rintro c r' rfl
  by_cases hc : c = '\n'
  · subst hc
    rfl
  · obtain ⟨r, rfl, hr⟩ := h.exists_cons hc
    refine Bool.eq_false_iff.mpr fun hpart => ?_
    exact Bool.eq_false_iff.mp (hb c r rfl) (isNumberPart_of_lineWithin hr hpart)

theorem EndsNumber.numberRest_eq (h : EndsNumber b) (c : Char) :
    numberRest c b = .one c b := by
  cases b with
  | nil => rfl
  | cons d r => rw [numberRest, if_neg (by rw [h d r rfl]; nofun)]

/-- A digit after a character of a number is read with it, and so it stays where it is. -/
theorem startsWithDigit_read (ha : (numberRest c r).read = c :: a)
    (hdigit : startsWithDigit r = true) (b' : List Char) : startsWithDigit (a ++ b') = true := by
  cases r with
  | nil => cases hdigit
  | cons d r =>
    have hd : d.isDigit = true := hdigit
    have hpart : isNumberPart d r = true := by
      simp [isNumberPart, Char.isAlphanum, hd]
    rw [numberRest, if_pos hpart] at ha
    obtain ⟨-, rfl⟩ := List.cons.inj ha
    obtain ⟨a, hread, -⟩ := exists_read_eq_cons (numberRest d r)
    rw [hread]
    exact hd

theorem endsNumber_rest (c : Char) (r : List Char) : EndsNumber (numberRest c r).rest := by
  induction r generalizing c with
  | nil => rintro _ _ ⟨⟩
  | cons d r ih =>
    rw [numberRest]
    split
    · exact ih d
    · rintro _ _ ⟨⟩
      exact Bool.eq_false_iff.mpr ‹_›

/-- A number is found again wherever no more of it follows. -/
theorem numberRest_of_endsNumber (ha : (numberRest c r).read = c :: a) (hb : EndsNumber b') :
    (numberRest c (a ++ b')).read = c :: a ∧ (numberRest c (a ++ b')).rest = b' := by
  induction r generalizing c a with
  | nil =>
    obtain ⟨-, rfl⟩ := List.cons.inj ha
    rw [List.nil_append, hb.numberRest_eq]
    exact ⟨rfl, rfl⟩
  | cons d r ih =>
    by_cases hpart : isNumberPart d r = true
    · rw [numberRest, if_pos hpart] at ha
      obtain ⟨-, rfl⟩ := List.cons.inj ha
      obtain ⟨a, hread, hr⟩ := exists_read_eq_cons (numberRest d r)
      have hpart' : isNumberPart d (a ++ b') = true := by
        simp only [isNumberPart, Bool.or_eq_true, Bool.and_eq_true] at hpart ⊢
        exact hpart.imp_right (And.imp_right fun h => startsWithDigit_read hread h b')
      obtain ⟨hread', hrest'⟩ := ih hread
      rw [hread, List.cons_append, numberRest, if_pos hpart']
      exact ⟨congrArg (c :: ·) hread', hrest'⟩
    · rw [numberRest, if_neg hpart] at ha
      obtain ⟨-, rfl⟩ := List.cons.inj ha
      rw [List.nil_append, hb.numberRest_eq]
      exact ⟨rfl, rfl⟩

theorem numberRest_local (ha : (numberRest c r).read = c :: a)
    (hb : LineWithin b' (numberRest c r).rest) :
    (numberRest c (a ++ b')).read = c :: a ∧ (numberRest c (a ++ b')).rest = b' :=
  numberRest_of_endsNumber ha ((endsNumber_rest c r).of_lineWithin hb)

theorem ne_empty_of_mem_puncts : ∀ p ∈ puncts, p.toList ≠ [] := by
  decide

theorem prefix_of_punct? {cs : List Char} {p : String} (h : punct? cs = some p) :
    p.toList <+: cs := by
  have htest := List.find?_some h
  exact List.isPrefixOf_iff_prefix.mp htest

theorem read_of_punct? {p : String} (h : punct? (c :: r) = some p) :
    (Cut.drop c r p.length).read = p.toList := by
  obtain ⟨more, hmore⟩ := prefix_of_punct? h
  rw [← String.length_toList]
  exact (read_drop_of_append_eq (ne_empty_of_mem_puncts p (List.mem_of_find?_eq_some h)) hmore).1

theorem newline_notMem_puncts : ∀ p ∈ puncts, '\n' ∉ p.toList := by
  decide

/-- An operator is found again in a text that starts with it and with no other one. -/
theorem punct?_of_isPrefix {cs cs' : List Char} {p : String} (h : punct? cs = some p)
    (hp : p.toList <+: cs') (hno : ∀ q ∈ puncts, q.toList <+: cs' → q.toList <+: cs) :
    punct? cs' = some p := by
  obtain ⟨-, earlier, later, hputs, hnone⟩ := List.find?_eq_some_iff_append.mp h
  refine List.find?_eq_some_iff_append.mpr ⟨List.isPrefixOf_iff_prefix.mpr hp, earlier, later,
    hputs, fun q hq => ?_⟩
  have hother := hnone q hq
  simp only [Bool.not_eq_true', Bool.eq_false_iff, ne_eq, List.isPrefixOf_iff_prefix] at hother ⊢
  exact fun hq' => hother (hno q (hputs ▸ List.mem_append_left _ hq) hq')

theorem punct?_of_lineWithin {cs cs' : List Char} {p : String} (h : punct? cs = some p)
    (hp : p.toList <+: cs') (hshort : LineWithin cs' cs) : punct? cs' = some p :=
  punct?_of_isPrefix h hp fun q hq => hshort.isPrefix_of (newline_notMem_puncts q hq)

/-! ### Pieces -/

namespace Piece

theorem startsNumber_of_lineWithin (h : LineWithin r' r) (hno : startsNumber c r = false) :
    startsNumber c r' = false := by
  simp only [startsNumber, Bool.or_eq_false_iff, Bool.and_eq_false_imp] at hno ⊢
  refine ⟨hno.1, fun hc => Bool.eq_false_iff.mpr fun hdigit => ?_⟩
  exact Bool.eq_false_iff.mp (hno.2 hc) (startsWithDigit_of_lineWithin h hdigit)

theorem startsWithWord_of_lineWithin (h : LineWithin r' r) (hword : startsWithWord r' = true) :
    startsWithWord r = true := by
  cases r' with
  | nil => cases hword
  | cons c r' =>
    have hc : c ≠ '\n' := by
      rintro rfl
      change isWordStart '\n' = true at hword
      exact absurd hword (by decide)
    obtain ⟨more, rfl, -⟩ := h.exists_cons hc
    exact hword

theorem startsName_of_lineWithin (h : LineWithin r' r) (hno : startsName c r = false) :
    startsName c r' = false := by
  simp only [startsName, Bool.or_eq_false_iff, Bool.and_eq_false_imp] at hno ⊢
  refine ⟨hno.1, fun hc => Bool.eq_false_iff.mpr fun hword => ?_⟩
  exact Bool.eq_false_iff.mp (hno.2 hc) (startsWithWord_of_lineWithin h hword)

/-- The letter after an `@` belongs to the word. -/
theorem startsName_read (ha : (Cut.run isWordChar c r).read = c :: a)
    (hname : startsName c r = true) (b' : List Char) : startsName c (a ++ b') = true := by
  obtain ⟨-, rfl⟩ := List.cons.inj ha
  simp only [startsName, Bool.or_eq_true, Bool.and_eq_true] at hname ⊢
  refine hname.imp_right (And.imp_right fun hword => ?_)
  cases r with
  | nil => cases hword
  | cons d r =>
    rw [List.takeWhile_cons_of_pos (isWordChar_of_isWordStart hword)]
    exact hword

theorem startsNumber_read (ha : (numberRest c r).read = c :: a) (hnumber : startsNumber c r = true)
    (b' : List Char) : startsNumber c (a ++ b') = true := by
  simp only [startsNumber, Bool.or_eq_true, Bool.and_eq_true] at hnumber ⊢
  exact hnumber.imp_right (And.imp_right fun hdigit => startsWithDigit_read ha hdigit b')

theorem token_local {kind : Token.Kind} (h : token c r = .ok (kind, t)) (ha : t.read = c :: a)
    (hb : LineWithin b' t.rest) :
    ∃ t', token c (a ++ b') = .ok (kind, t') ∧ t'.read = c :: a ∧ t'.rest = b' := by
  have hshort : LineWithin (a ++ b') r := lineWithin_of_read ha hb
  have hshortCons : LineWithin (c :: (a ++ b')) (c :: r) := hshort.cons c
  simp only [token_eq_ok_iff] at h ⊢
  -- One case per kind of token: what was read is read again, and what the earlier tests did not
  -- find in the longer text they do not find in the shorter one.
  cases h with
  | string ho hclose =>
    have hstring : ReadsString (c :: r) (c :: a) t.rest := ⟨_, ho, t, hclose, ha, rfl⟩
    obtain ⟨o', ho', t', hclose', hread', hrest'⟩ := (literals_local _).string _ _ _ hstring hb
    exact ⟨t', .string ho' hclose', hread', hrest'⟩
  | @char t hquote hrest =>
    obtain ⟨-, rfl⟩ := List.cons.inj ha
    obtain ⟨t', hrest', hread', hrest''⟩ :=
      charRest_local (c :: r) (c :: (t.read ++ b')) r t.read t.rest b' ⟨t, hrest, rfl, rfl⟩ hb
    exact ⟨t'.cons c, .char hquote hrest', congrArg (c :: ·) hread', hrest''⟩
  | number ho hquote hnumber =>
    exact ⟨_, .number (Opening.of?_eq_none_of_lineWithin hshortCons ho) hquote
      (startsNumber_read ha hnumber b'), numberRest_local ha hb⟩
  | word ho hquote hnumber hname =>
    exact ⟨_, .word (Opening.of?_eq_none_of_lineWithin hshortCons ho) hquote
      (startsNumber_of_lineWithin hshort hnumber) (startsName_read ha hname b'),
      run_local (by decide) ha hb⟩
  | @punct p ho hquote hnumber hname hp =>
    have hne := ne_empty_of_mem_puncts p (List.mem_of_find?_eq_some hp)
    have hread := ha.symm.trans (read_of_punct? hp)
    have hcut := read_drop_of_append_eq hne (congrArg (· ++ b') hread.symm)
    rw [String.length_toList, ← hread] at hcut
    have hp' : punct? (c :: (a ++ b')) = some p :=
      punct?_of_lineWithin hp (hread ▸ List.prefix_append (c :: a) b') hshortCons
    exact ⟨_, .punct (Opening.of?_eq_none_of_lineWithin hshortCons ho) hquote
      (startsNumber_of_lineWithin hshort hnumber) (startsName_of_lineWithin hshort hname) hp', hcut⟩

theorem comment?_eq_none_of_lineWithin (h : LineWithin r' r) (hno : comment? lineStart c r = none) :
    comment? lineStart c r' = none := by
  have hsecond : ∀ d, d ≠ '\n' → ∀ more', r' = d :: more' → ∃ more, r = d :: more := by
    rintro d hd more' rfl
    obtain ⟨more, hmore, -⟩ := h.exists_cons hd
    exact ⟨more, hmore⟩
  have hline := hsecond '/' (by decide)
  have hblock := hsecond '*' (by decide)
  unfold comment? at hno ⊢
  grind

theorem CommentAt.of_lineWithin (h : CommentAt lineStart c kind a b) (hb : LineWithin b' b) :
    CommentAt lineStart c kind a b' := by
  cases h with
  | line hopen hline hend =>
    refine .line hopen hline fun d hd => ?_
    have hfails := hb.head_fails (p := (· != '\n')) rfl (by simpa using hend) d hd
    simpa using hfails
  | block hopen hbody => exact .block hopen hbody

/-- A run of blanks ends where something else starts. -/
theorem head_rest_of_isBlank (hc : isBlank c = true) (h : next lineStart c r = .ok (kind, t)) :
    ∀ d, t.rest.head? = some d → isBlank d = false := by
  rw [next, if_pos hc] at h
  cases h
  exact head_dropWhile_fails isBlank r

/-- **A piece is found again if what follows it shows no more than before.** A run of blanks must
not go on either. -/
theorem next_local (h : next lineStart c r = .ok (kind, t)) (ha : t.read = c :: a)
    (hb : LineWithin b' t.rest)
    (hrun : isBlank c = true → ∀ d, b'.head? = some d → isBlank d = false) :
    ∃ t', next lineStart c (a ++ b') = .ok (kind, t') ∧ t'.read = c :: a ∧ t'.rest = b' := by
  cases nextAt_of_next h with
  | blank hblank => exact ⟨_, if_pos hblank, run_of_fails ha (hrun hblank)⟩
  | comment hblank hcomment =>
    have hat := (commentAt_of_comment? hcomment).of_lineWithin hb
    rw [ha] at hat
    obtain ⟨t', hcomment', hcut⟩ := hat.exists_comment?
    refine ⟨t', ?_, hcut⟩
    rw [next, if_neg (Bool.eq_false_iff.mp hblank), hcomment']
  | token hblank hcomment htoken =>
    obtain ⟨t', htoken', hcut⟩ := token_local (token_eq_ok_iff.mpr htoken) ha hb
    have hno := comment?_eq_none_of_lineWithin (lineWithin_of_read ha hb) hcomment
    refine ⟨t', ?_, hcut⟩
    rw [next, if_neg (Bool.eq_false_iff.mp hblank), hno, htoken']
    rfl

theorem head_ne_hash_of_mem_puncts : ∀ p ∈ puncts, p.toList.head? ≠ some '#' := by
  decide

/-- No token starts with the sign that starts a directive. -/
theorem token_hash_ne_ok (r : List Char) (kind : Token.Kind) (t : Cut ('#' :: r)) :
    token '#' r ≠ .ok (kind, t) := by
  intro h
  cases token_eq_ok_iff.mp h with
  | string ho => cases ho
  | char hquote => cases hquote
  | number ho hquote hnumber => cases hnumber
  | word ho hquote hnumber hname =>
    have hno : startsName '#' r = false := rfl
    rw [hno] at hname
    cases hname
  | @punct p ho hquote hnumber hname hp =>
    have hmem := List.mem_of_find?_eq_some hp
    obtain ⟨d, q, hd⟩ := List.exists_cons_of_ne_nil (ne_empty_of_mem_puncts p hmem)
    obtain ⟨rfl, -⟩ := List.cons_prefix_cons.mp (hd ▸ prefix_of_punct? hp)
    exact head_ne_hash_of_mem_puncts p hmem (by rw [hd]; rfl)

theorem comment?_eq_of_ne_hash (hc : c ≠ '#') (r : List Char) (lineStart lineStart' : Bool) :
    comment? lineStart c r = comment? lineStart' c r := by
  unfold comment?
  grind

/-- A token starts here whether or not a directive may start here. -/
theorem next_eq_of_token {kind : Token.Kind} (h : next lineStart c r = .ok (.token kind, t))
    (lineStart' : Bool) :
    next lineStart' c r = .ok (.token kind, t) := by
  have hc : c ≠ '#' := by
    rintro rfl
    cases lineStart with
    | true => cases h
    | false =>
      have hno : comment? false '#' r = none := rfl
      have hblank : ¬isBlank '#' = true := by decide
      unfold next at h
      rw [if_neg hblank, hno] at h
      cases htoken : token '#' r with
      | error fault => rw [htoken] at h; cases h
      | ok found => exact token_hash_ne_ok r found.1 found.2 htoken
  unfold next at h ⊢
  rwa [comment?_eq_of_ne_hash hc r lineStart' lineStart]

end Piece

end Cuts

/-! ### Sequences of pieces -/

section Pieces

variable {lineStart : Bool} {cs : List Char} {p : Piece} {ps qs : List Piece}

theorem pieces_of_next {c : Char} {r : List Char} {kind : Piece.Kind} {t : Cut (c :: r)}
    (hnext : Piece.next lineStart c r = .ok (kind, t)) :
    pieces lineStart (c :: r) =
      (pieces (Piece.lineStartAfter lineStart ⟨kind, t.read⟩) t.rest).map
        (⟨kind, t.read⟩ :: ·) := by
  rw [pieces.eq_def]
  simp only [hnext]

theorem pieces_cons {c : Char} {r : List Char} {kind : Piece.Kind} {t : Cut (c :: r)}
    (hnext : Piece.next lineStart c r = .ok (kind, t))
    (hrest : pieces (Piece.lineStartAfter lineStart ⟨kind, t.read⟩) t.rest = .ok ps) :
    pieces lineStart (c :: r) = .ok (⟨kind, t.read⟩ :: ps) := by
  rw [pieces_of_next hnext, hrest]
  rfl

/-- The pieces of a text, up to any of them, are the pieces of what they spell. -/
theorem pieces_flatMap_text (h : pieces lineStart cs = .ok (ps ++ qs)) :
    pieces lineStart (ps.flatMap Piece.text) = .ok ps := by
  induction ps generalizing lineStart cs with
  | nil =>
    unfold pieces
    rfl
  | cons p ps ih =>
    obtain ⟨c, r, t, rfl, hnext, hread, hrest⟩ := exists_next_of_pieces h
    obtain ⟨a, ha, -⟩ := exists_read_eq_cons t
    have hb : ps.flatMap Piece.text <+: t.rest := by
      rw [← spell_pieces hrest]
      exact List.flatMap_append ▸ List.prefix_append _ _
    have hrun : isBlank c = true →
        ∀ d, (ps.flatMap Piece.text).head? = some d → isBlank d = false := by
      intro hc d hd
      obtain ⟨more, hmore⟩ := hb
      refine Piece.head_rest_of_isBlank hc hnext d ?_
      rw [← hmore, List.head?_append, hd, Option.some_or]
    obtain ⟨t', hnext', hread', hrest'⟩ := Piece.next_local hnext ha (.of_isPrefix hb) hrun
    have hp : (⟨p.kind, t'.read⟩ : Piece) = p := by rw [hread', ← ha, hread]
    have hps : pieces (Piece.lineStartAfter lineStart ⟨p.kind, t'.read⟩) t'.rest = .ok ps := by
      rw [hp, hrest']
      exact ih hrest
    rw [List.flatMap_cons, ← hread, ha, List.cons_append, pieces_cons hnext' hps, hp]

/-- The pieces of a text, from any of them on, are the pieces of what they spell. -/
theorem exists_pieces_flatMap_text (h : pieces lineStart cs = .ok (ps ++ qs)) :
    ∃ lineStart', pieces lineStart' (qs.flatMap Piece.text) = .ok qs := by
  induction ps generalizing lineStart cs with
  | nil =>
    have hcs : qs.flatMap Piece.text = cs := spell_pieces h
    exact ⟨lineStart, hcs ▸ h⟩
  | cons p ps ih =>
    obtain ⟨c, r, t, rfl, hnext, hread, hrest⟩ := exists_next_of_pieces h
    exact ih hrest

/-- Pieces that start with a token do not depend on whether a directive may start there. -/
theorem pieces_of_head_isToken (h : pieces lineStart cs = .ok (p :: ps)) (hp : p.isToken = true)
    (lineStart' : Bool) : pieces lineStart' cs = .ok (p :: ps) := by
  obtain ⟨c, r, t, rfl, hnext, hread, hrest⟩ := exists_next_of_pieces h
  have hsame : ∀ start, Piece.lineStartAfter start p = p.text.contains '\n' := by
    intro start
    rw [Piece.lineStartAfter, hp, Bool.not_true, Bool.and_false, Bool.or_false]
  obtain ⟨kind, hkind⟩ : ∃ kind, p.kind = .token kind := by
    unfold Piece.isToken at hp
    split at hp
    · exact ⟨_, ‹_›⟩
    · cases hp
  have hpiece : (⟨p.kind, t.read⟩ : Piece) = p := by rw [hread]
  have hnext' : Piece.next lineStart' c r = .ok (p.kind, t) := by
    rw [hkind] at hnext ⊢
    exact Piece.next_eq_of_token hnext lineStart'
  have hps : pieces (Piece.lineStartAfter lineStart' ⟨p.kind, t.read⟩) t.rest = .ok ps := by
    rw [hpiece, hsame, ← hsame lineStart]
    exact hrest
  rw [pieces_cons hnext' hps, hpiece]

end Pieces

end ClassSugar.Token
