import ClassSugar.Proofs.RenamedPieces

/-!
# Renamed pieces are cut again

Renaming puts pieces in the place of the pieces of a text (`Renames`), and these are the pieces of the
text that they spell (`Renames.pieces_eq`). It is shown for one piece after the other: each is cut
off where it ends (`IsCut`), since what follows it looks alike. Where words were put in the place of
words (`Alike`), whoever looks for operators, comments, quotes or digits finds what was there before.
Only the end of a word would be seen elsewhere, and a word that touches another one is copied.
-/

namespace ClassSugar

open ClassSugar.Text

namespace Renaming

open ClassSugar.Token

/-! ### What can be seen of a text in which words were replaced -/

namespace Alike

variable {old new : List Char} (hold : IsName old) (hnew : IsName new) {a' a b' b : List Char}

include hnew in
/-- What is in no word stood there before. -/
theorem isPrefix_of (h : Alike old new b' b) {s : List Char} (hs : ∀ c ∈ s, isWordPart c = false)
    (hb : s <+: b') : s <+: b := by
  induction h generalizing s with
  | nil => exact hb
  | cons c h ih =>
    cases s with
    | nil => exact List.nil_prefix
    | cons d s =>
      obtain ⟨rfl, htail⟩ := List.cons_prefix_cons.mp hb
      exact List.cons_prefix_cons.mpr ⟨rfl, ih (List.forall_mem_cons.mp hs).2 htail⟩
  | word h ih =>
    cases s with
    | nil => exact List.nil_prefix
    | cons d s =>
      obtain ⟨c, new', rfl⟩ := List.exists_cons_of_ne_nil hnew.ne_nil
      obtain ⟨rfl, -⟩ := List.cons_prefix_cons.mp hb
      have hpart := hnew.isWordPart d List.mem_cons_self
      rw [(List.forall_mem_cons.mp hs).1] at hpart
      cases hpart

include hnew in
theorem head?_eq (h : Alike old new b' b) {c : Char} (hc : isWordPart c = false)
    (hb : b'.head? = some c) : b.head? = some c := by
  obtain ⟨s, rfl⟩ := List.head?_eq_some_iff.mp hb
  have hprefix : [c] <+: b :=
    h.isPrefix_of hnew (List.forall_mem_singleton.mpr hc) (List.prefix_append [c] s)
  obtain ⟨more, rfl⟩ := hprefix
  rfl

include hold in
theorem exists_cons {c : Char} (hc : isWordPart c = false) (h : Alike old new a' (c :: a)) :
    ∃ b', a' = c :: b' ∧ Alike old new b' a := by
  generalize hcons : c :: a = s at h
  cases h with
  | nil => cases hcons
  | cons d h =>
    obtain ⟨rfl, rfl⟩ := List.cons.inj hcons
    exact ⟨_, rfl, h⟩
  | word h =>
    obtain ⟨d, old', rfl⟩ := List.exists_cons_of_ne_nil hold.ne_nil
    obtain ⟨rfl, -⟩ := List.cons.inj hcons
    rw [hold.isWordPart c List.mem_cons_self] at hc
    cases hc

include hold in
theorem eq_nil (h : Alike old new a' []) : a' = [] := by
  generalize hnil : [] = s at h
  cases h with
  | nil => rfl
  | cons => cases hnil
  | word => exact absurd (List.append_eq_nil_iff.mp hnil.symm).1 hold.ne_nil

include hold hnew in
theorem startsWithDigit_eq (h : Alike old new b' b) : startsWithDigit b' = startsWithDigit b := by
  have hname : ∀ {s : List Char} (b : List Char), IsName s → startsWithDigit (s ++ b) = false := by
    intro s b hs
    obtain ⟨c, r, rfl⟩ := List.exists_cons_of_ne_nil hs.ne_nil
    exact hs.head_isDigit c rfl
  cases h with
  | nil => rfl
  | cons c h => rfl
  | word h => rw [hname _ hnew, hname _ hold]

include hold hnew in
theorem quotesBefore_eq (h : Alike old new b' b) : quotesBefore b' = quotesBefore b := by
  have hname : ∀ {s : List Char} (b : List Char), IsName s →
      (s ++ b).takeWhile (· == '"') = [] := by
    intro s b hs
    obtain ⟨c, r, rfl⟩ := List.exists_cons_of_ne_nil hs.ne_nil
    refine List.takeWhile_cons_of_neg fun heq => ?_
    have hpart := hs.isWordPart c List.mem_cons_self
    rw [beq_iff_eq.mp heq] at hpart
    exact absurd hpart (by decide)
  have htake : b'.takeWhile (· == '"') = b.takeWhile (· == '"') := by
    induction h with
    | nil => rfl
    | cons c h ih => rw [List.takeWhile_cons, List.takeWhile_cons, ih]
    | word h ih => rw [hname _ hnew, hname _ hold]
  exact congrArg (1 + List.length ·) htake

include hold hnew in
theorem newline_mem_iff (h : Alike old new a' a) : '\n' ∈ a' ↔ '\n' ∈ a := by
  have hname : ∀ {s : List Char}, IsName s → '\n' ∉ s := fun hs hmem =>
    absurd (hs.isWordPart _ hmem) (by decide)
  induction h with
  | nil => rfl
  | cons c h ih =>
    rw [List.mem_cons, List.mem_cons]
    exact or_congr_right ih
  | word h ih =>
    rw [List.mem_append, List.mem_append, or_iff_right (hname hnew), or_iff_right (hname hold)]
    exact ih

end Alike

end Renaming

/-! ### Comments are cut again -/

namespace Token

open Renaming

theorem BlockBody.of_append {s a : List Char} (hs : ∀ c ∈ s, isWordPart c = true)
    (h : BlockBody (s ++ a)) : BlockBody a := by
  induction s with
  | nil => exact h
  | cons c s ih =>
    obtain ⟨hc, hs⟩ := List.forall_mem_cons.mp hs
    refine ih hs ?_
    generalize hcons : c :: s ++ a = b at h
    cases h with
    | close =>
      obtain ⟨rfl, -⟩ := List.cons.inj hcons
      exact absurd hc (by decide)
    | cons hopen h =>
      obtain ⟨rfl, rfl⟩ := List.cons.inj hcons
      exact h

theorem BlockBody.append {s a : List Char} (hs : ∀ c ∈ s, isWordPart c = true) (h : BlockBody a) :
    BlockBody (s ++ a) := by
  induction s with
  | nil => exact h
  | cons c s ih =>
    obtain ⟨hc, hs⟩ := List.forall_mem_cons.mp hs
    refine .cons (fun heq => ?_) (ih hs)
    rw [heq] at hc
    exact absurd hc (by decide)

/-- Words do not close a comment. -/
theorem BlockBody.of_alike {old new a' a : List Char} (hold : IsName old) (hnew : IsName new)
    (h : Alike old new a' a) (ha : BlockBody a) : BlockBody a' := by
  induction h with
  | nil => exact ha
  | word h ih => exact (ih (ha.of_append hold.isWordPart)).append hnew.isWordPart
  | cons c h ih =>
    cases ha with
    | close =>
      obtain ⟨b', rfl, hrest⟩ := h.exists_cons hold (by decide)
      rw [hrest.eq_nil hold]
      exact .close
    | cons hopen ha =>
      exact .cons (fun hc hhead => hopen hc (h.head?_eq hnew (by decide) hhead)) (ih ha)

end Token

/-! ### Pieces are cut again -/

namespace Renaming

open ClassSugar.Token

/-- The piece is cut off the text that starts with it and goes on with `b`. -/
def IsCut (lineStart : Bool) (p : Piece) (b : List Char) : Prop :=
  ∃ c r, ∃ t : Cut (c :: r), p.text ++ b = c :: r ∧ Piece.next lineStart c r = .ok (p.kind, t) ∧
    t.read = p.text ∧ t.rest = b

theorem IsCut.pieces_eq {lineStart : Bool} {p : Piece} {b : List Char} {ps : List Piece}
    (h : IsCut lineStart p b) (hps : pieces (Piece.lineStartAfter lineStart p) b = .ok ps) :
    pieces lineStart (p.text ++ b) = .ok (p :: ps) := by
  obtain ⟨c, r, t, hcs, hnext, hread, hrest⟩ := h
  have hpiece : (⟨p.kind, t.read⟩ : Piece) = p := by rw [hread]
  rw [← hrest, ← hpiece] at hps
  rw [hcs, pieces_cons hnext hps, hpiece]

section Cut

variable {lineStart : Bool} {c : Char} {r a b' : List Char}

theorem isCut_blank (hc : isBlank c = true) (ha : ∀ d ∈ a, isBlank d = true)
    (hb : ∀ d, b'.head? = some d → isBlank d = false) :
    IsCut lineStart ⟨.blank, c :: a⟩ b' :=
  ⟨c, a ++ b', _, rfl, if_pos hc, congrArg (c :: ·) (takeWhile_append_of_fails ha hb),
    dropWhile_append_of_fails ha hb⟩

theorem isCut_of_commentAt {kind : Piece.Kind}
    (h : Piece.CommentAt lineStart c kind (c :: a) b') : IsCut lineStart ⟨kind, c :: a⟩ b' := by
  have hblank : ¬isBlank c = true := by rcases h.head_eq with rfl | rfl <;> decide
  obtain ⟨t, hcomment, hcut⟩ := h.exists_comment?
  refine ⟨c, a ++ b', t, rfl, ?_, hcut⟩
  unfold Piece.next
  rw [if_neg hblank, hcomment]

theorem isCut_token {kind : Token.Kind} {t : Cut (c :: (a ++ b'))} (hblank : isBlank c = false)
    (hcomment : Piece.comment? lineStart c (a ++ b') = none)
    (htoken : Piece.TokenAt c (a ++ b') kind t) (hread : t.read = c :: a) (hrest : t.rest = b') :
    IsCut lineStart ⟨.token kind, c :: a⟩ b' := by
  refine ⟨c, a ++ b', t, rfl, ?_, hread, hrest⟩
  unfold Piece.next
  rw [if_neg (by rw [hblank]; nofun), hcomment, Piece.token_eq_ok_iff.mpr htoken]
  rfl

theorem of?_eq_none {cs : List Char} (h : ∀ r, cs.dropWhile isMark ≠ '"' :: r) :
    Opening.of? cs = none := by
  unfold Opening.of?
  split
  · exact absurd ‹_› (h _)
  · rfl

theorem of?_eq_none_of_head (hmark : isMark c = false) (hquote : c ≠ '"') :
    Opening.of? (c :: r) = none := by
  refine of?_eq_none fun r' heq => ?_
  rw [List.dropWhile_cons_of_neg (by rw [hmark]; nofun)] at heq
  exact hquote (List.cons.inj heq).1

theorem of?_eq_none_of_isName (ha : IsName (c :: a)) : Opening.of? (c :: (a ++ b')) = none := by
  have hquote : ∀ d, isWordPart d = true → d ≠ '"' := by
    rintro _ hd rfl
    exact absurd hd (by decide)
  cases hmark : isMark c with
  | false => exact of?_eq_none_of_head hmark (hquote c (ha.isWordPart c List.mem_cons_self))
  | true =>
    -- Behind the marks stands a letter.
    obtain ⟨d, hlast, hd⟩ := ha.exists_isWordChar
    cases a with
    | nil =>
      obtain rfl : c = d := Option.some.inj hlast
      rw [isMark_of_isWordChar hd] at hmark
      cases hmark
    | cons e a =>
      obtain ⟨_, _, heq, -, hchars⟩ := ha
      obtain ⟨rfl, rfl⟩ := List.cons.inj heq
      have he := hchars e List.mem_cons_self
      refine of?_eq_none fun r heq => ?_
      rw [List.cons_append, List.dropWhile_cons_of_pos hmark,
        List.dropWhile_cons_of_neg (by rw [isMark_of_isWordChar he]; nofun)] at heq
      exact hquote e (isWordPart_of_isWordChar he) (List.cons.inj heq).1

theorem comment?_eq_none_of_ne (hslash : c ≠ '/') (hhash : c ≠ '#') :
    Piece.comment? lineStart c r = none := by
  unfold Piece.comment?
  grind

/-- **An identifier is cut** where no character of a word follows it. -/
theorem isCut_name (ha : IsName (c :: a)) (hb : ∀ d, b'.head? = some d → isWordChar d = false) :
    IsCut lineStart ⟨.token .ident, c :: a⟩ b' := by
  have hpart := ha.isWordPart c List.mem_cons_self
  have hother : ∀ d, isWordPart d = false → c ≠ d := by
    rintro d hd rfl
    rw [hpart] at hd
    cases hd
  have hstring : Opening.of? (c :: (a ++ b')) = none := of?_eq_none_of_isName ha
  have hnumber : Piece.startsNumber c (a ++ b') = false := by
    simp [Piece.startsNumber, ha.head_isDigit c rfl, hother '.' (by decide)]
  have hcomment : Piece.comment? lineStart c (a ++ b') = none :=
    comment?_eq_none_of_ne (hother _ (by decide)) (hother _ (by decide))
  obtain ⟨_, _, heq, hname, hchars⟩ := ha
  obtain ⟨rfl, rfl⟩ := List.cons.inj heq
  have hname' : Piece.startsName c (a ++ b') = true := by
    simp only [Piece.startsName, Bool.or_eq_true, Bool.and_eq_true] at hname ⊢
    refine hname.imp_right (And.imp_right fun hword => ?_)
    cases a with
    | nil => cases hword
    | cons d a => exact hword
  refine isCut_token (isBlank_of_isWordPart hpart) hcomment
    (.word hstring (hother _ (by decide)) hnumber hname') ?_ ?_
  · exact congrArg (c :: ·) (takeWhile_append_of_fails hchars hb)
  · exact dropWhile_append_of_fails hchars hb

theorem comment?_eq_none_of_head {r' : List Char}
    (hhead : ∀ d, isWordPart d = false → r'.head? = some d → r.head? = some d)
    (hno : Piece.comment? lineStart c r = none) : Piece.comment? lineStart c r' = none := by
  have hsecond : ∀ d, isWordPart d = false → ∀ more', r' = d :: more' → ∃ more, r = d :: more := by
    rintro d hd more' rfl
    exact List.head?_eq_some_iff.mp (hhead d hd rfl)
  have hline := hsecond '/' (by decide)
  have hblock := hsecond '*' (by decide)
  unfold Piece.comment? at hno ⊢
  grind

/-- An operator is cut where neither a comment nor a number starts. -/
theorem isCut_of_punct? {p : String} (hp : punct? (c :: (a ++ b')) = some p)
    (ha : p.toList = c :: a) (hblank : isBlank c = false)
    (hcomment : Piece.comment? lineStart c (a ++ b') = none)
    (hnumber : Piece.startsNumber c (a ++ b') = false) :
    IsCut lineStart ⟨.token .punct, c :: a⟩ b' := by
  have hmem := List.mem_of_find?_eq_some hp
  obtain ⟨hplain, hmark⟩ := isPlain_of_mem_puncts p hmem c (ha ▸ List.mem_cons_self)
  simp only [isPlain, Bool.and_eq_true, Bool.not_eq_true', bne_iff_ne] at hplain
  have hname : Piece.startsName c (a ++ b') = false := by
    refine Bool.eq_false_iff.mpr fun hname => ?_
    simp only [Piece.startsName, Bool.or_eq_true, Bool.and_eq_true, beq_iff_eq] at hname
    rcases hname with hstart | ⟨rfl, -⟩
    · simp [isWordPart, isWordChar_of_isWordStart hstart] at hplain
    · cases hmark
  have hcut := read_drop_of_append_eq (ne_empty_of_mem_puncts p hmem) (congrArg (· ++ b') ha)
  rw [String.length_toList, ha] at hcut
  exact isCut_token hblank hcomment (.punct (of?_eq_none_of_head hmark hplain.1.2) hplain.2 hnumber
    hname hp) hcut.1 hcut.2

variable {old new : List Char} (hold : IsName old) (hnew : IsName new)
include hold hnew

/-- A number ends where it ended before. -/
theorem endsNumber_of_alike {b : List Char} (halike : Alike old new b' b)
    (hhead : b'.head? = b.head?) (hb : EndsNumber b) : EndsNumber b' := by
  rintro d s rfl
  obtain ⟨more, rfl⟩ := List.head?_eq_some_iff.mp hhead.symm
  have hno := hb d more rfl
  simp only [isNumberPart, Bool.or_eq_false_iff, Bool.and_eq_false_imp, beq_iff_eq] at hno ⊢
  refine ⟨hno.1, fun hdot => ?_⟩
  subst hdot
  obtain ⟨s', hs, hrest⟩ := halike.exists_cons hold (by decide)
  obtain ⟨-, rfl⟩ := List.cons.inj hs
  rw [hrest.startsWithDigit_eq hold hnew]
  exact hno.2 rfl

/-- An operator is cut where it was cut before: none that is longer has come up behind it. -/
theorem isCut_punct {p : String} (hblank : isBlank c = false)
    (hcomment : Piece.comment? lineStart c (a ++ b') = none)
    (hnumber : Piece.startsNumber c r = false) (hp : punct? (c :: r) = some p)
    (ha : p.toList = c :: a) (htail : Alike old new (a ++ b') r) :
    IsCut lineStart ⟨.token .punct, c :: a⟩ b' := by
  have hcons : Alike old new (c :: (a ++ b')) (c :: r) := .cons c htail
  refine isCut_of_punct? ?_ ha hblank hcomment ?_
  · refine punct?_of_isPrefix hp (ha ▸ List.prefix_append (c :: a) b') fun q hq => ?_
    refine hcons.isPrefix_of hnew fun d hd => ?_
    exact isWordPart_of_isPlain (isPlain_of_mem_puncts q hq d hd).1
  · rw [Piece.startsNumber, htail.startsWithDigit_eq hold hnew]
    exact hnumber

/-- **A token is cut again** if words that follow it were replaced, but none that touches it if it
is a word itself. -/
theorem isCut_of_token {kind : Token.Kind} {t : Cut (c :: r)} (hblank : isBlank c = false)
    (hno : Piece.comment? lineStart c r = none) (htoken : Piece.TokenAt c r kind t)
    (ha : t.read = c :: a) (hpass : Passable ⟨.token kind, c :: a⟩) (halike : Alike old new b' t.rest)
    (htouch : endsInWord ⟨.token kind, c :: a⟩ = true → b'.head? = t.rest.head?) :
    IsCut lineStart ⟨.token kind, c :: a⟩ b' := by
  have hr : a ++ t.rest = r := by
    have hcs := t.read_append_rest
    rw [ha] at hcs
    exact (List.cons.inj hcs).2
  have htail : Alike old new (a ++ b') r := hr ▸ halike.append_left a
  have hcomment : Piece.comment? lineStart c (a ++ b') = none :=
    comment?_eq_none_of_head (fun d hd => htail.head?_eq hnew hd) hno
  cases htoken with
  | string ho hclose =>
    obtain ⟨hinterpolated, hraw⟩ := hpass.string rfl
    have hreads : ReadsString (c :: r) (c :: a) t.rest := ⟨_, ho, t, hclose, ha, rfl⟩
    obtain ⟨n, body, hread, hcloses⟩ := exists_closesString hreads hinterpolated hraw
    have hcloses' : ClosesString n body b' :=
      { hcloses with
        next := fun hv hquote => hcloses.next hv (halike.head?_eq hnew (by decide) hquote)
        few := by
          rw [(halike.append_left body).quotesBefore_eq hold hnew]
          exact hcloses.few }
    have hreads' := hcloses'.readsString
    have hcons : c :: a = List.replicate n '@' ++ '"' :: body := hread
    rw [← hcons] at hreads'
    obtain ⟨o', ho', t', hclose', hread', hrest'⟩ := hreads'
    exact isCut_token hblank hcomment (.string ho' hclose') hread' hrest'
  | @char t hquote hrest =>
    obtain ⟨-, rfl⟩ := List.cons.inj ha
    have hbody := (reads_charRest_iff.mp ⟨t, hrest, rfl, rfl⟩).2
    obtain ⟨t', hrest', hread', hleft'⟩ :
        Reads (charRest (c :: (t.read ++ b')) (t.read ++ b')) t.read b' :=
      reads_charRest_iff.mpr ⟨rfl, hbody⟩
    exact isCut_token hblank hcomment (.char hquote hrest') (congrArg (c :: ·) hread') hleft'
  | number ho hquote hnumber =>
    -- Where a number ends depends on the character behind it, which is still the same.
    have hstart : isMark c = false ∧ c ≠ '"' := by
      rcases isDigit_or_of_startsNumber hnumber with hdigit | rfl
      · refine ⟨isMark_of_isWordChar (isWordChar_of_isDigit hdigit), ?_⟩
        rintro rfl
        cases hdigit
      · decide
    have hend := endsNumber_of_alike hold hnew halike (htouch rfl) (endsNumber_rest c r)
    obtain ⟨hread', hrest'⟩ := numberRest_of_endsNumber ha hend
    exact isCut_token hblank hcomment (.number (of?_eq_none_of_head hstart.1 hstart.2) hquote
      (Piece.startsNumber_read ha hnumber b')) hread' hrest'
  | word ho hquote hnumber hname =>
    obtain ⟨-, rfl⟩ := List.cons.inj ha
    refine isCut_name (IsName.of_run hname) ?_
    rw [htouch rfl]
    exact head_dropWhile_fails isWordChar r
  | @punct p ho hquote hnumber hname hp =>
    have hread := (read_of_punct? hp).symm.trans ha
    exact isCut_punct hold hnew hblank hcomment hnumber hp hread htail

/-- A comment in which words were replaced is cut again. -/
theorem isCut_comment {kind : Piece.Kind} {text' text b : List Char}
    (h : Piece.CommentAt lineStart c kind text b) (htext : Alike old new text' text)
    (halike : Alike old new b' b) : IsCut lineStart ⟨kind, text'⟩ b' := by
  have hc : isWordPart c = false := by
    rcases h.head_eq with rfl | rfl <;> decide
  cases h with
  | line hopen hline hend =>
    obtain ⟨a', rfl, ha⟩ := htext.exists_cons hold hc
    refine isCut_of_commentAt (.line (hopen.imp_left fun hslashes => ?_) ?_ fun d hd => ?_)
    · obtain ⟨hslash, hrest⟩ := List.cons_prefix_cons.mp hslashes
      obtain ⟨a, rfl⟩ := hrest
      obtain ⟨a', rfl, -⟩ := ha.exists_cons hold (by decide)
      exact List.cons_prefix_cons.mpr ⟨hslash, List.prefix_append ['/'] a'⟩
    · rwa [htext.newline_mem_iff hold hnew]
    · cases b with
      | nil =>
        rw [halike.eq_nil hold] at hd
        cases hd
      | cons e b =>
        obtain rfl := hend e rfl
        obtain ⟨s, rfl, -⟩ := halike.exists_cons hold (by decide)
        exact (Option.some.inj hd).symm
  | block hopen hbody =>
    obtain ⟨_, rfl, hstar⟩ := htext.exists_cons hold hc
    obtain ⟨a', rfl, ha⟩ := hstar.exists_cons hold (by decide)
    exact isCut_of_commentAt (.block hopen (hbody.of_alike hold hnew ha))

/-- **What is put in the place of a piece is cut again.** -/
theorem isCut_becomes {kind : Piece.Kind} {t : Cut (c :: r)} {p' : Piece} {inWord : Bool}
    {w : List Char} (h : Piece.next lineStart c r = .ok (kind, t))
    (hpass : Passable ⟨kind, t.read⟩) (hp : Becomes old new inWord w t.rest ⟨kind, t.read⟩ p')
    (halike : Alike old new b' t.rest)
    (htouch : endsInWord ⟨kind, t.read⟩ = true → b'.head? = t.rest.head?) :
    IsCut lineStart p' b' := by
  cases Piece.nextAt_of_next h with
  | blank hblank =>
    cases hp with
    | token hp => cases hp
    | comment hkind => rcases hkind with hkind | hkind <;> cases hkind
    | blank =>
      refine isCut_blank hblank (fun d hd => List.mem_takeWhile_imp hd) fun d hd => ?_
      refine Bool.eq_false_iff.mpr fun hd' => ?_
      have hno := head_dropWhile_fails isBlank r d
        (halike.head?_eq hnew (isWordPart_of_isBlank hd') hd)
      rw [hd'] at hno
      cases hno
  | comment hblank hcomment =>
    have hat := Piece.commentAt_of_comment? hcomment
    have hkind : kind = .line ∨ kind = .block := by
      generalize t.read = text, t.rest = b at hat
      cases hat with
      | line => exact .inl rfl
      | block => exact .inr rfl
    cases hp with
    | token hp => rcases hkind with rfl | rfl <;> cases hp
    | blank => rcases hkind with hkind | hkind <;> cases hkind
    | comment _ htext => exact isCut_comment hold hnew hat htext halike
  | @token kind t hblank hcomment htoken =>
    obtain ⟨a, ha, -⟩ := exists_read_eq_cons t
    cases hp with
    | comment hkind => rcases hkind with hkind | hkind <;> cases hkind
    | token =>
      unfold renamed
      split
      · -- The new identifier is followed by what followed the old one.
        rename_i hreplaced
        obtain ⟨hkind, -⟩ := Piece.mk.inj hreplaced.1
        cases hkind
        obtain ⟨d, new', rfl⟩ := List.exists_cons_of_ne_nil hnew.ne_nil
        refine isCut_name hnew ?_
        rw [htouch rfl]
        cases htoken
        exact head_dropWhile_fails isWordChar r
      · rw [ha] at hpass htouch ⊢
        exact isCut_of_token hold hnew hblank hcomment htoken ha hpass halike htouch

end Cut

section Pieces

variable {old new : List Char} (hold : IsName old) (hnew : IsName new) {inWord : Bool}
  {w : List Char} {ps ps' : List Piece}

theorem Becomes.kind_eq {rest : List Char} {p p' : Piece} (h : Becomes old new inWord w rest p p') :
    p'.kind = p.kind := by
  cases h with
  | token hp =>
    unfold renamed
    split
    · rename_i hreplaced
      rw [hreplaced.1]
    · rfl
  | blank | comment => rfl

theorem Renames.alike (h : Renames old new inWord w ps ps') :
    Alike old new (ps'.flatMap Piece.text) (ps.flatMap Piece.text) := by
  induction h with
  | nil => exact .nil
  | cons hp h ih => exact hp.alike.append ih

include hold in
/-- Nothing is replaced inside a word that is copied. -/
theorem Renames.head?_eq (hfit : ∀ p ∈ ps, p.Fits) (h : Renames old new true w ps ps') :
    (ps'.flatMap Piece.text).head? = (ps.flatMap Piece.text).head? := by
  cases h with
  | nil => rfl
  | @cons _ _ p p' ps ps' hp h =>
    have hfit := hfit p List.mem_cons_self
    obtain ⟨c, a, ha⟩ := List.exists_cons_of_ne_nil hfit.text_ne_nil
    have hhead : ∃ a', p'.text = c :: a' := by
      cases hp with
      | token hp =>
        refine ⟨a, ?_⟩
        rw [renamed, if_neg (fun hreplaced => nomatch hreplaced.2.1)]
        exact ha
      | blank => exact ⟨a, ha⟩
      | @comment kind text' text hkind htext =>
        obtain rfl : text = c :: a := ha
        have hsign : c = '/' ∨ c = '#' := by
          rcases hkind with hline | hblock
          · exact (hfit.line hline).1.imp (fun h => (List.cons_prefix_cons.mp h).1.symm)
              fun h => (List.cons_prefix_cons.mp h).1.symm
          · exact .inl (List.cons_prefix_cons.mp (hfit.block hblock)).1.symm
        have hc : isWordPart c = false := by
          rcases hsign with rfl | rfl <;> decide
        obtain ⟨a', rfl, -⟩ := htext.exists_cons hold hc
        exact ⟨a', rfl⟩
    obtain ⟨a', ha'⟩ := hhead
    rw [List.flatMap_cons, List.flatMap_cons, ha, ha']
    rfl

include hold hnew in
/-- **What is put in the place of pieces is cut into them again.** -/
theorem Renames.pieces_eq {lineStart : Bool} {cs : List Char} (h : Renames old new inWord w ps ps')
    (hps : pieces lineStart cs = .ok ps) (hpass : ∀ p ∈ ps, Passable p) :
    pieces lineStart (ps'.flatMap Piece.text) = .ok ps' := by
  -- What stands behind a piece is alike to what stood there, and starts with the same character if the
  -- piece ends in a word. This is all that is needed to cut the piece off.
  induction h generalizing lineStart cs with
  | nil =>
    unfold pieces
    rfl
  | @cons inWord w p p' ps ps' hp h ih =>
    obtain ⟨hpass, hpasses⟩ := List.forall_mem_cons.mp hpass
    obtain ⟨c, r, t, rfl, hnext, hread, hrest⟩ := exists_next_of_pieces hps
    have hpiece : (⟨p.kind, t.read⟩ : Piece) = p := by rw [hread]
    have hbecomes : Becomes old new inWord w t.rest ⟨p.kind, t.read⟩ p' := by
      rw [hpiece, ← spell_pieces hrest]
      exact hp
    have hcut : IsCut lineStart p' (ps'.flatMap Piece.text) := by
      refine isCut_becomes hold hnew hnext (hpiece ▸ hpass) hbecomes ?_ ?_
      · rw [← spell_pieces hrest]
        exact h.alike
      · intro hword
        rw [hpiece] at hword
        rw [hword] at h
        rw [← spell_pieces hrest]
        exact h.head?_eq hold (fits_of_mem_pieces hrest)
    have hstart : Piece.lineStartAfter lineStart p' = Piece.lineStartAfter lineStart p := by
      have hbreak := hp.alike.newline_mem_iff hold hnew
      unfold Piece.lineStartAfter Piece.isToken
      rw [hp.kind_eq, List.contains_eq_mem, List.contains_eq_mem]
      simp only [hbreak]
    refine hcut.pieces_eq ?_
    rw [hstart]
    exact ih hrest hpasses

end Pieces

end Renaming

end ClassSugar
