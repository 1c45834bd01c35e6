import ClassSugar.Proofs.RenamedWords

/-!
# Renaming keeps step with the pieces of a text

The scanner that renames identifiers finds words and literals on its own. Here it is compared with
the pieces of the text, one piece after the other.

Between two pieces the scanner is in one of two states (`scan`): it is about to look at something
new, or it is inside a word that it copies, since a word of the scanner may reach over several pieces
(`Name@other`, `1é`). Each piece that is no interpolated or raw string and no comment with quotes
takes it from one such state to another (`exists_becomes`). So the scanner puts pieces in the place
of pieces, and `Renames` says which ones (`exists_renames`).
-/

namespace ClassSugar

open ClassSugar.Text

namespace Renaming

open ClassSugar.Token

variable {f : List Char → List Char} {w : List Char} {old new : String}

/-! ### Pieces put in the place of pieces -/

/-- The scan from between two pieces, outside or inside a word that is copied. -/
def scan (f : List Char → List Char) (inWord : Bool) (w cs : List Char) : List Char :=
  if inWord then copyWord f w cs else code f w cs

theorem scan_eq_code (inWord : Bool) {cs : List Char}
    (h : ∀ c, cs.head? = some c → isWordPart c = false) : scan f inWord w cs = code f w cs := by
  unfold scan
  split
  · exact copyWord_of_fails h
  · rfl

theorem scan_eq_copyWord (inWord : Bool) {cs : List Char}
    (h : f (cs.takeWhile isWordPart) = cs.takeWhile isWordPart) :
    scan f inWord w cs = copyWord f w cs := by
  unfold scan
  split
  · rfl
  · exact code_eq_copyWord (.inr h)

/-- Whether a word of the scanner may go on after the piece. -/
def endsInWord (p : Piece) : Bool :=
  match p.kind with
  | .token .ident | .token .number => true
  | _ => false

/-- The scanner is in step after the piece: a string is neither interpolated nor raw, and there is no
quote in a comment. -/
structure Passable (p : Piece) : Prop where
  string : p.kind = .token .str →
    '$' ∉ p.text.takeWhile isMark ∧ ¬['"', '"', '"'] <+: p.text.dropWhile isMark
  comment : p.kind = .line ∨ p.kind = .block → ∀ c ∈ p.text, c ≠ '"' ∧ c ≠ '\''

/-- The piece that is put in the place of a token: `w` stands before it, reversed, and `rest` behind
it. An identifier is replaced if it is a word of the scanner, and not after a dot. -/
def renamed (old new : List Char) (inWord : Bool) (w rest : List Char) (p : Piece) : Piece :=
  if p = ⟨.token .ident, old⟩ ∧ inWord = false ∧ endsWithDot w = false ∧ rest.head? ≠ some '@' then
    ⟨.token .ident, new⟩
  else
    p

/-- What is put in the place of a piece. -/
inductive Becomes (old new : List Char) (inWord : Bool) (w rest : List Char) :
    Piece → Piece → Prop where
  | token {p : Piece} (hp : p.isToken = true) :
      Becomes old new inWord w rest p (renamed old new inWord w rest p)
  | blank (text : List Char) : Becomes old new inWord w rest ⟨.blank, text⟩ ⟨.blank, text⟩
  | comment {kind : Piece.Kind} {text' text : List Char} (hkind : kind = .line ∨ kind = .block)
      (htext : Alike old new text' text) :
      Becomes old new inWord w rest ⟨kind, text⟩ ⟨kind, text'⟩

/-- What is put in the place of pieces. -/
inductive Renames (old new : List Char) : Bool → List Char → List Piece → List Piece → Prop where
  | nil (inWord : Bool) (w : List Char) : Renames old new inWord w [] []
  | cons {inWord : Bool} {w : List Char} {p p' : Piece} {ps ps' : List Piece}
      (hp : Becomes old new inWord w (ps.flatMap Piece.text) p p')
      (h : Renames old new (endsInWord p) (p.text.reverse ++ w) ps ps') :
      Renames old new inWord w (p :: ps) (p' :: ps')

/-- What was written last is no mark that a string could take for its own. -/
def Settled (w cs : List Char) : Prop :=
  ∀ c, w.head? = some c → isMark c = true → cs = [] ∨ cs.head? = some '\n'

theorem isMark_of_isWordChar {c : Char} (h : isWordChar c = true) : isMark c = false := by
  refine Bool.eq_false_iff.mpr fun hmark => ?_
  simp only [isMark, Bool.or_eq_true, beq_iff_eq] at hmark
  rcases hmark with rfl | rfl <;> exact absurd h (by decide)

/-- A text that ends with something else settles what it is put behind. -/
theorem settled_of_getLast {text : List Char} {c : Char} (hlast : text.getLast? = some c)
    (hc : isMark c = false) (w cs : List Char) : Settled (text.reverse ++ w) cs := by
  intro d hd hmark
  rw [List.head?_append, List.head?_reverse, hlast] at hd
  cases hd
  rw [hc] at hmark
  cases hmark

theorem settled_of_forall {text : List Char} (hne : text ≠ []) (h : ∀ c ∈ text, isMark c = false)
    (w cs : List Char) : Settled (text.reverse ++ w) cs :=
  settled_of_getLast (List.getLast?_eq_getLast_of_ne_nil hne) (h _ (List.getLast_mem hne)) w cs

theorem ofReversed_of_settled {n : Nat} {r : List Char}
    (h : Settled w (List.replicate n '@' ++ '"' :: r)) :
    Marks.ofReversed (List.replicate n '@' ++ w) =
      ⟨false, (List.replicate n '@').contains '@'⟩ := by
  have hhead : ∀ c, w.head? = some c → (c == '$' || c == '@') = false := by
    intro c hc
    refine Bool.eq_false_iff.mpr fun hmark => ?_
    have hend := h c hc (by rw [isMark, Bool.or_comm]; exact hmark)
    cases n with
    | zero | succ n => rcases hend with hend | hend <;> cases hend
  have htake : ∀ k, (w.take k).takeWhile (fun c => c == '$' || c == '@') = [] := by
    intro k
    cases w with
    | nil => simp
    | cons c w =>
      cases k with
      | zero => rfl
      | succ k => exact List.takeWhile_cons_of_neg (by rw [hhead c rfl]; exact Bool.false_ne_true)
  unfold Marks.ofReversed
  cases n with
  | zero =>
    simp [htake 2]
  | succ n =>
    cases n with
    | zero => simp [htake 1]
    | succ n => simp [List.replicate_succ]

section Step

variable {c : Char} {r : List Char} (inWord : Bool)

/-- A string is copied, with its marks. -/
theorem scan_string (hold : IsName old.toList) {n : Nat} {body b : List Char}
    (h : ClosesString n body b) (hw : Settled w (List.replicate n '@' ++ '"' :: body ++ b)) :
    scan (single old new) inWord w (List.replicate n '@' ++ '"' :: body ++ b) =
      code (single old new) ((List.replicate n '@' ++ '"' :: body).reverse ++ w) b := by
  have hmarks : ∀ c ∈ List.replicate n '@', isWordPart c = true := by
    intro c hc
    rw [List.eq_of_mem_replicate hc]
    decide
  have hquote : ∀ c, ('"' :: (body ++ b)).head? = some c → isWordPart c = false := by
    rintro _ ⟨⟩
    decide
  rw [List.append_assoc, List.cons_append] at hw ⊢
  -- The marks are a word of the scanner, but no identifier.
  have hfix : single old new (List.replicate n '@') = List.replicate n '@' := by
    refine if_neg fun heq => ?_
    obtain ⟨c, hlast, hc⟩ := hold.exists_isWordChar
    have hmem : c ∈ List.replicate n '@' := heq ▸ List.mem_of_getLast? hlast
    rw [List.eq_of_mem_replicate hmem] at hc
    exact absurd hc (by decide)
  rw [scan_eq_copyWord _ (by rw [takeWhile_append_of_fails hmarks hquote, hfix]),
    copyWord_append hmarks, copyWord_of_fails hquote, code_string, List.reverse_replicate,
    ofReversed_of_settled hw, literal_body (by decide) h.isBody h.next]
  simp

/-- A character literal is copied. -/
theorem scan_char {a b : List Char} (h : LiteralBody '\'' false a) :
    scan (single old new) inWord w ('\'' :: (a ++ b)) =
      code (single old new) (('\'' :: a).reverse ++ w) b := by
  rw [scan_eq_code _ (by rintro _ ⟨⟩; decide), code_char, literal_body (by decide) h nofun]
  simp

/-- What is in no word is copied. -/
theorem scan_plain {s : List Char} (hne : s ≠ []) (hs : ∀ c ∈ s, isPlain c = true) (b : List Char) :
    scan (single old new) inWord w (s ++ b) = code (single old new) (s.reverse ++ w) b := by
  obtain ⟨c, s', rfl⟩ := List.exists_cons_of_ne_nil hne
  have hhead : isWordPart c = false := isWordPart_of_isPlain (hs c List.mem_cons_self)
  rw [scan_eq_code _ (by rintro _ ⟨⟩; exact hhead), code_plain_append hs]

theorem isWordChar_of_isNumberPart {d : Char} {b : List Char} (h : isNumberPart d b = true) :
    isWordChar d = true ∨ d = '.' := by
  simp only [isNumberPart, Bool.or_eq_true, Bool.and_eq_true, beq_iff_eq] at h
  rcases h with (h | rfl) | ⟨rfl, -⟩
  · exact .inl (isWordChar_of_isAlphanum h)
  · exact .inl (by decide)
  · exact .inr rfl

theorem forall_mem_numberRest (c : Char) (r : List Char) (hc : isWordChar c = true ∨ c = '.') :
    ∀ d ∈ (numberRest c r).read, isWordChar d = true ∨ d = '.' := by
  induction r generalizing c with
  | nil => exact List.forall_mem_singleton.mpr hc
  | cons d r ih =>
    rw [numberRest]
    split
    · exact List.forall_mem_cons.mpr ⟨hc, ih d (isWordChar_of_isNumberPart ‹_›)⟩
    · exact List.forall_mem_singleton.mpr hc

theorem isDigit_or_of_startsNumber (h : Piece.startsNumber c r = true) :
    c.isDigit = true ∨ c = '.' := by
  simp only [Piece.startsNumber, Bool.or_eq_true, Bool.and_eq_true, beq_iff_eq] at h
  exact h.imp_right And.left

theorem isWordChar_of_isDigit {d : Char} (h : d.isDigit = true) : isWordChar d = true :=
  isWordChar_of_isAlphanum (by simp [Char.isAlphanum, h])

/-- A number is made of characters of words and of points. -/
theorem forall_mem_numberRest_of_startsNumber (h : Piece.startsNumber c r = true) :
    ∀ d ∈ (numberRest c r).read, isWordChar d = true ∨ d = '.' :=
  forall_mem_numberRest c r ((isDigit_or_of_startsNumber h).imp_left isWordChar_of_isDigit)

theorem isWordPart_of_isWordChar {d : Char} (h : isWordChar d = true) : isWordPart d = true := by
  rw [isWordPart, h, Bool.true_or]

/-- A number is copied, as a word or several words with points before them. -/
theorem scan_number (hold : IsName old.toList) (hnumber : Piece.startsNumber c r = true) :
    scan (single old new) inWord w (c :: r) =
      copyWord (single old new) ((numberRest c r).read.reverse ++ w) (numberRest c r).rest := by
  have hparts : ∀ d ∈ (numberRest c r).read, isWordPart d = true ∨ d = '.' := fun d hd =>
    (forall_mem_numberRest_of_startsNumber hnumber d hd).imp_left isWordPart_of_isWordChar
  -- The first word starts with a digit, if one starts here at all.
  have hfix : single old new ((c :: r).takeWhile isWordPart) = (c :: r).takeWhile isWordPart := by
    refine if_neg fun heq => ?_
    rcases isDigit_or_of_startsNumber hnumber with hdigit | rfl
    · have hc : isWordPart c = true := isWordPart_of_isWordChar (isWordChar_of_isDigit hdigit)
      rw [List.takeWhile_cons_of_pos hc] at heq
      have hno := hold.head_isDigit c (by rw [← heq]; rfl)
      rw [hdigit] at hno
      cases hno
    · exact hold.ne_nil heq.symm
  rw [scan_eq_copyWord _ hfix]
  nth_rewrite 1 [← (numberRest c r).read_append_rest]
  exact copyWord_dotted hparts _

/-- An identifier is copied or replaced. -/
theorem scan_name (hold : IsName old.toList) {u b : List Char} (hu : IsName u)
    (hb : ∀ d, b.head? = some d → isWordChar d = false) :
    scan (single old new) inWord w (u ++ b) = copyWord (single old new)
      ((renamed old.toList new.toList inWord w b ⟨.token .ident, u⟩).text.reverse ++ w) b := by
  have hstop : b.head? ≠ some '@' → ∀ d, b.head? = some d → isWordPart d = false := by
    intro hmark d hd
    have hother : d ≠ '@' := fun heq => hmark (heq ▸ hd)
    simp [isWordPart, hb d hd, hother]
  unfold renamed
  split
  case isTrue hreplaced =>
    obtain ⟨hpiece, rfl, hdot, hmark⟩ := hreplaced
    obtain ⟨-, rfl⟩ := Piece.mk.inj hpiece
    obtain ⟨c, u, hc⟩ := List.exists_cons_of_ne_nil hold.ne_nil
    have hcode : code (single old new) w (old.toList ++ b) =
        code (single old new) (new.toList.reverse ++ w) b := by
      have htake := takeWhile_append_of_fails hold.isWordPart (hstop hmark)
      have hdrop := dropWhile_append_of_fails hold.isWordPart (hstop hmark)
      have hnew : single old new old.toList = new.toList := if_pos rfl
      rw [hc, List.cons_append] at htake hdrop ⊢
      rw [code_word (hold.isWordPart c (hc ▸ List.mem_cons_self)), htake, hdrop, hdot, ← hc, hnew]
      rfl
    exact hcode.trans (copyWord_of_fails (hstop hmark)).symm
  case isFalse hcopied =>
    have hcopy : scan (single old new) inWord w (u ++ b) = copyWord (single old new) w (u ++ b) := by
      cases inWord with
      | true => rfl
      | false =>
        by_cases hdot : endsWithDot w = true
        · exact code_eq_copyWord (.inl hdot)
        refine code_eq_copyWord (.inr (if_neg fun heq => ?_))
        by_cases hmark : b.head? = some '@'
        · -- The word goes on with a mark, which no identifier has there.
          obtain ⟨b, rfl⟩ := List.head?_eq_some_iff.mp hmark
          obtain ⟨c, u, rfl⟩ := List.exists_cons_of_ne_nil hu.ne_nil
          rw [List.takeWhile_append_of_pos hu.isWordPart, List.takeWhile_cons_of_pos (by decide),
            List.cons_append] at heq
          exact (heq ▸ hold).notMem_tail (List.mem_append_right u List.mem_cons_self)
        · rw [takeWhile_append_of_fails hu.isWordPart (hstop hmark)] at heq
          exact hcopied ⟨heq ▸ rfl, rfl, Bool.eq_false_iff.mpr hdot, hmark⟩
    rw [hcopy, copyWord_append hu.isWordPart]

end Step

theorem Becomes.alike {old new : List Char} {inWord : Bool} {w rest : List Char} {p p' : Piece}
    (h : Becomes old new inWord w rest p p') : Alike old new p'.text p.text := by
  cases h with
  | token hp =>
    unfold renamed
    split
    · rename_i hreplaced
      have hword : Alike old new (new ++ []) (old ++ []) := .word .nil
      rw [List.append_nil, List.append_nil] at hword
      rw [hreplaced.1]
      exact hword
    · exact .refl _
  | blank text => exact .refl text
  | comment hkind htext => exact htext

theorem renamed_of_ne {old new : List Char} {inWord : Bool} {w rest text : List Char}
    (kind : Token.Kind) (h : kind ≠ .ident) :
    renamed old new inWord w rest ⟨.token kind, text⟩ = ⟨.token kind, text⟩ :=
  if_neg fun hreplaced => h (Piece.Kind.token.inj (congrArg Piece.kind hreplaced.1))

theorem isPlain_of_mem_puncts :
    ∀ p ∈ puncts, ∀ c ∈ p.toList, isPlain c = true ∧ isMark c = false := by
  have hall : ∀ p ∈ puncts, p.toList.all (fun c => isPlain c && !isMark c) = true := by
    decide +kernel
  intro p hp c hc
  have hboth := List.all_eq_true.mp (hall p hp) c hc
  rwa [Bool.and_eq_true, Bool.not_eq_true'] at hboth

theorem isBlank_of_mem_run {c : Char} {r : List Char} (hc : isBlank c = true) :
    ∀ d ∈ (Cut.run isBlank c r).read, isBlank d = true :=
  List.forall_mem_cons.mpr ⟨hc, fun _ hd => List.mem_takeWhile_imp hd⟩

theorem isPlain_of_isBlank {c : Char} (h : isBlank c = true) :
    isPlain c = true ∧ isMark c = false := by
  have hother : ∀ d, isBlank d = false → c ≠ d := by
    rintro d hd rfl
    rw [h] at hd
    cases hd
  simp [isPlain, isMark, isWordPart_of_isBlank h, hother '"' rfl, hother '\'' rfl, hother '@' rfl,
    hother '$' rfl]

section Pieces

variable (hold : IsName old.toList) (hnew : IsName new.toList) {c : Char} {r : List Char}
  (inWord : Bool)
include hold hnew

/-- The scanner passes a token. -/
theorem scan_token {kind : Token.Kind} {t : Cut (c :: r)} (h : Piece.TokenAt c r kind t)
    (hpass : Passable ⟨.token kind, t.read⟩) (hw : Settled w (c :: r)) {p' : Piece}
    (hp' : renamed old.toList new.toList inWord w t.rest ⟨.token kind, t.read⟩ = p') :
    scan (single old new) inWord w (c :: r) =
        scan (single old new) (endsInWord ⟨.token kind, t.read⟩) (p'.text.reverse ++ w) t.rest ∧
      Settled (p'.text.reverse ++ w) t.rest := by
  subst hp'
  -- One case per kind of token. Only a word can be replaced; of all others the scanner has to
  -- read the same characters as the lexer.
  cases h with
  | string ho hclose =>
    obtain ⟨hinterpolated, hraw⟩ := hpass.string rfl
    obtain ⟨n, body, hread, hcloses⟩ :=
      exists_closesString ⟨_, ho, t, hclose, rfl, rfl⟩ hinterpolated hraw
    have hcs := t.read_append_rest
    rw [hread] at hcs
    rw [← hcs] at hw
    have hscan : scan (single old new) inWord w _ = _ := scan_string inWord hold hcloses hw
    rw [hcs] at hscan
    rw [renamed_of_ne .str (by decide), hread]
    exact ⟨hscan, settled_of_getLast (getLast?_of_readsString hcloses.readsString) rfl _ _⟩
  | @char t hquote hrest =>
    subst hquote
    have hbody := (reads_charRest_iff.mp ⟨t, hrest, rfl, rfl⟩).2
    have hscan : scan (single old new) inWord w ('\'' :: (t.read ++ t.rest)) = _ :=
      scan_char inWord hbody
    rw [t.read_append_rest] at hscan
    rw [renamed_of_ne .char (by decide)]
    exact ⟨hscan, settled_of_getLast (hbody.getLast?_cons '\'') rfl _ _⟩
  | number ho hquote hnumber =>
    rw [renamed_of_ne .number (by decide)]
    refine ⟨scan_number inWord hold hnumber, settled_of_forall (Cut.read_ne_nil _) ?_ _ _⟩
    intro d hd
    rcases forall_mem_numberRest_of_startsNumber hnumber d hd with h | rfl
    · exact isMark_of_isWordChar h
    · rfl
  | word ho hquote hnumber hname =>
    have hu := IsName.of_run hname
    have hcs : (c :: r.takeWhile isWordChar) ++ r.dropWhile isWordChar = c :: r := by
      rw [List.cons_append, List.takeWhile_append_dropWhile]
    have hscan : scan (single old new) inWord w _ = _ :=
      scan_name inWord hold hu (head_dropWhile_fails isWordChar r)
    rw [hcs] at hscan
    refine ⟨hscan, ?_⟩
    have hname' : IsName (renamed old.toList new.toList inWord w (r.dropWhile isWordChar)
        ⟨.token .ident, c :: r.takeWhile isWordChar⟩).text := by
      unfold renamed
      split
      · exact hnew
      · exact hu
    obtain ⟨d, hlast, hd⟩ := hname'.exists_isWordChar
    exact settled_of_getLast hlast (isMark_of_isWordChar hd) _ _
  | @punct p ho hquote hnumber hname hp =>
    have hmem := List.mem_of_find?_eq_some hp
    obtain ⟨more, hmore⟩ := prefix_of_punct? hp
    obtain ⟨hread, hrest⟩ := read_drop_of_append_eq (ne_empty_of_mem_puncts p hmem) hmore
    rw [String.length_toList] at hread hrest
    have hscan : scan (single old new) inWord w _ = _ :=
      scan_plain inWord (ne_empty_of_mem_puncts p hmem)
        (fun c hc => (isPlain_of_mem_puncts p hmem c hc).1) more
    rw [hmore] at hscan
    rw [renamed_of_ne .punct (by decide), hread, hrest]
    refine ⟨hscan, settled_of_forall (ne_empty_of_mem_puncts p hmem) ?_ _ _⟩
    exact fun c hc => (isPlain_of_mem_puncts p hmem c hc).2

omit hold hnew in
/-- The scanner passes a comment, in which it may replace words. -/
theorem exists_scan_comment {lineStart : Bool} {kind : Piece.Kind} {t : Cut (c :: r)}
    (h : Piece.comment? lineStart c r = some (.ok (kind, t))) (hpass : Passable ⟨kind, t.read⟩) :
    ∃ text', (kind = .line ∨ kind = .block) ∧ Alike old.toList new.toList text' t.read ∧
      scan (single old new) inWord w (c :: r) = code (single old new) (text'.reverse ++ w) t.rest ∧
      Settled (text'.reverse ++ w) t.rest := by
  have hcomment := Piece.commentAt_of_comment? h
  have hcode : scan (single old new) inWord w (c :: r) =
      code (single old new) w (t.read ++ t.rest) := by
    rw [t.read_append_rest]
    refine scan_eq_code inWord ?_
    rintro _ ⟨⟩
    rcases hcomment.head_eq with rfl | rfl <;> decide
  have hquotes := hpass.comment
  rw [hcode]
  generalize t.read = text, t.rest = b at hcomment hquotes
  cases hcomment with
  | @line a b hopen hline hend =>
    obtain ⟨text', halike, hscan⟩ : ∃ text', Alike old.toList new.toList text' (c :: a) ∧
        code (single old new) w (c :: a ++ b) = code (single old new) (text'.reverse ++ w) b :=
      exists_code_of_no_quotes (c :: a) (hquotes (.inl rfl)) fun _ _ _ d hd => hend d hd ▸ by decide
    refine ⟨text', .inl rfl, halike, hscan, fun d _ _ => ?_⟩
    cases b with
    | nil => exact .inl rfl
    | cons e b => exact .inr (congrArg some (hend e rfl))
  | @block a b hopen hbody =>
    -- The slash at the end is no part of a word.
    obtain ⟨u, hu⟩ := List.getLast?_eq_some_iff.mp (hbody.getLast?_comment c)
    rw [hu] at hquotes ⊢
    obtain ⟨u', halike, hscan⟩ : ∃ u', Alike old.toList new.toList u' u ∧
        code (single old new) w (u ++ '/' :: b) =
          code (single old new) (u'.reverse ++ w) ('/' :: b) :=
      exists_code_of_no_quotes u (fun x hx => hquotes (.inr rfl) x (List.mem_append_left _ hx))
        (by rintro _ _ _ d ⟨⟩; decide)
    refine ⟨u' ++ ['/'], .inr rfl, halike.append (.refl ['/']), ?_,
      settled_of_getLast List.getLast?_concat rfl _ _⟩
    rw [List.append_assoc, List.singleton_append, hscan, code_plain (by decide)]
    simp

/-- **The scanner passes a piece**, and puts a piece in its place. -/
theorem exists_becomes {lineStart : Bool} {kind : Piece.Kind} {t : Cut (c :: r)}
    (h : Piece.next lineStart c r = .ok (kind, t)) (hpass : Passable ⟨kind, t.read⟩)
    (hw : Settled w (c :: r)) {w₀ : List Char} (hdot : endsWithDot w = endsWithDot w₀) :
    ∃ p', Becomes old.toList new.toList inWord w₀ t.rest ⟨kind, t.read⟩ p' ∧
      scan (single old new) inWord w (c :: r) =
        scan (single old new) (endsInWord ⟨kind, t.read⟩) (p'.text.reverse ++ w) t.rest ∧
      Settled (p'.text.reverse ++ w) t.rest := by
  cases Piece.nextAt_of_next h with
  | blank hblank =>
    have hblanks := isBlank_of_mem_run (r := r) hblank
    refine ⟨_, .blank _, ?_, ?_⟩
    · have hscan : scan (single old new) inWord w _ = _ :=
        scan_plain inWord (Cut.read_ne_nil _) (fun d hd => (isPlain_of_isBlank (hblanks d hd)).1)
          (Cut.run isBlank c r).rest
      rw [Cut.read_append_rest] at hscan
      exact hscan
    · exact settled_of_forall (Cut.read_ne_nil _)
        (fun d hd => (isPlain_of_isBlank (hblanks d hd)).2) _ _
  | comment hblank hcomment =>
    obtain ⟨text', hkind, halike, hscan, hsettled⟩ :
        ∃ text', _ ∧ Alike old.toList new.toList text' t.read ∧
          scan (single old new) inWord w (c :: r) = _ ∧ _ :=
      exists_scan_comment inWord hcomment hpass
    refine ⟨⟨kind, text'⟩, .comment hkind halike, ?_, hsettled⟩
    rcases hkind with rfl | rfl <;> exact hscan
  | @token kind t hblank hcomment htoken =>
    have hsame : renamed old.toList new.toList inWord w t.rest ⟨.token kind, t.read⟩ =
        renamed old.toList new.toList inWord w₀ t.rest ⟨.token kind, t.read⟩ := by
      unfold renamed
      rw [hdot]
    exact ⟨_, .token rfl, scan_token hold hnew inWord htoken hpass hw hsame⟩

/-- **The scanner keeps step with the pieces** of a text, and puts others in their places. -/
theorem exists_renames {lineStart : Bool} {cs : List Char} {ps : List Piece}
    (h : pieces lineStart cs = .ok ps) (hpass : ∀ p ∈ ps, Passable p) (hw : Settled w cs)
    {w₀ : List Char} (hdot : endsWithDot w = endsWithDot w₀) :
    ∃ ps', Renames old.toList new.toList inWord w₀ ps ps' ∧
      scan (single old new) inWord w cs = (ps'.flatMap Piece.text).reverse ++ w := by
  -- What is written (`w`) and what was read (`w₀`) drift apart where words are replaced. All that the
  -- scanner asks of them is whether they end with a dot, and there they agree.
  induction ps generalizing lineStart cs inWord w w₀ with
  | nil =>
    obtain rfl : [] = cs := spell_pieces h
    refine ⟨[], .nil _ _, ?_⟩
    rw [scan_eq_code inWord (by rintro _ ⟨⟩), code.eq_def]
    rfl
  | cons p ps ih =>
    obtain ⟨c, r, t, rfl, hnext, hread, hrest⟩ := exists_next_of_pieces h
    obtain ⟨hp, hps⟩ := List.forall_mem_cons.mp hpass
    have hpiece : (⟨p.kind, t.read⟩ : Piece) = p := by rw [hread]
    obtain ⟨p', hbecomes, hscan, hsettled⟩ :=
      exists_becomes hold hnew inWord hnext (hpiece ▸ hp) hw hdot
    rw [hpiece] at hbecomes hscan
    obtain ⟨ps', hrenames, hscan'⟩ := ih (endsInWord p) hrest hps hsettled
      (hbecomes.alike.endsWithDot_eq hold hnew hdot)
    rw [← spell_pieces hrest] at hbecomes
    refine ⟨p' :: ps', .cons hbecomes hrenames, ?_⟩
    rw [hscan, hscan', List.flatMap_cons, List.reverse_append, List.append_assoc]

end Pieces

end Renaming

end ClassSugar
