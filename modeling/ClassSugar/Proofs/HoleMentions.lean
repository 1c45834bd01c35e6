import ClassSugar.Grammar.Fragment
import ClassSugar.Proofs.HoleParts

/-!
# Names in the holes of interpolated literals

The words in the holes of a literal are found by counting braces, and the count does not know of
literals inside a hole. Here the search is set against the parts that the scanner of the literal
reads.

* The search goes from character to character (`WordSearch`, `holeWords_eq`). A word at some place
  is found if and only if the braces before it leave a hole open and no character of a word stands
  right before it (`forall_mem_holeWords_iff`).
* Along the parts of a literal at least as many braces are counted as the scanner has open, unless
  a literal in a hole closes a brace that it did not open or an escape hides one (`Covers.readsPart`,
  `ReadsParts.covers`).
* `hole_name_found_iff` puts the two together.
-/

namespace ClassSugar.Token

open ClassSugar.Text ClassSugar.Renaming

/-! ### Counting braces -/

/-- The braces that are counted in front of a place. -/
inductive Braces where
  /-- No brace is open. -/
  | shut
  /-- A brace was read just now. It opens a hole unless another one follows. -/
  | half
  /-- Braces are open, `more` of them behind the first. -/
  | deep (more : Nat)
  deriving DecidableEq

namespace Braces

/-- The number of open braces. -/
def depth : Braces → Nat
  | shut => 0
  | half => 1
  | deep more => more + 1

/-- As many braces are open, and the last character read was none. -/
def ofDepth : Nat → Braces
  | 0 => shut
  | more + 1 => deep more

/-- A character is read. -/
def next (b : Braces) (c : Char) : Braces :=
  match b with
  | shut => if c = '{' then half else shut
  | half => if c = '{' then shut else if c = '}' then shut else deep 0
  | deep more => if c = '{' then deep (more + 1) else if c = '}' then ofDepth more else deep more

/-- A text is read. -/
def after (b : Braces) (cs : List Char) : Braces :=
  cs.foldl next b

@[simp] theorem after_nil (b : Braces) : b.after [] = b := rfl

@[simp] theorem after_cons (b : Braces) (c : Char) (cs : List Char) :
    b.after (c :: cs) = (b.next c).after cs := rfl

theorem after_append (b : Braces) (cs ds : List Char) :
    b.after (cs ++ ds) = (b.after cs).after ds :=
  List.foldl_append

/-- A brace that is not doubled opens a hole. -/
theorem next_half {c : Char} (hc : c ≠ '{') : half.next c = (deep 0).next c := by
  simp only [next, if_neg hc]
  rfl

theorem next_ne_half {c : Char} (hc : c ≠ '{') (b : Braces) : b.next c ≠ half := by
  cases b with
  | shut => simp [next, hc]
  | half => simp only [next, if_neg hc]; split <;> nofun
  | deep more =>
    simp only [next, if_neg hc]
    split
    · cases more <;> nofun
    · nofun

theorem depth_next {b : Braces} {c : Char} (hopen : c ≠ '{') (hshut : c ≠ '}') :
    (b.next c).depth = b.depth := by
  cases b <;> simp [next, depth, hopen, hshut]

theorem depth_after {b : Braces} {cs : List Char} (hcs : ∀ c ∈ cs, c ≠ '{' ∧ c ≠ '}') :
    (b.after cs).depth = b.depth := by
  induction cs generalizing b with
  | nil => rfl
  | cons c cs ih =>
    obtain ⟨⟨hopen, hshut⟩, hcs⟩ := List.forall_mem_cons.mp hcs
    rw [after_cons, ih hcs, depth_next hopen hshut]

theorem after_shut {cs : List Char} (hcs : '{' ∉ cs) : shut.after cs = shut := by
  induction cs with
  | nil => rfl
  | cons c cs ih =>
    obtain ⟨hc, hcs⟩ := List.ne_and_not_mem_of_not_mem_cons hcs
    rw [after_cons, next, if_neg (Ne.symm hc), ih hcs]

end Braces

/-! ### The search for words -/

/-- What the search for words knows at a place: the open braces, and the start of a word, read
backwards. -/
structure WordSearch where
  braces : Braces
  word : List Char

namespace WordSearch

/-- Whether a character goes on with a word. -/
def extends? (s : WordSearch) (c : Char) : Bool :=
  s.braces.depth != 0 && isWordChar c

/-- A character is read. -/
def next (s : WordSearch) (c : Char) : WordSearch :=
  ⟨s.braces.next c, if s.extends? c then c :: s.word else []⟩

/-- The word that ends before a character. -/
def ended (s : WordSearch) (c : Char) : List String :=
  if s.extends? c then [] else endedWord s.word

/-- The words that are found in a text. -/
def words (s : WordSearch) : List Char → List String
  | [] => []
  | c :: r => s.ended c ++ (s.next c).words r

/-- A text is read. -/
def after (s : WordSearch) (cs : List Char) : WordSearch :=
  cs.foldl next s

/-- The search at the start of a text. -/
def start : WordSearch :=
  ⟨.shut, []⟩

theorem words_append (s : WordSearch) (cs ds : List Char) :
    s.words (cs ++ ds) = s.words cs ++ (s.after cs).words ds := by
  induction cs generalizing s with
  | nil => rfl
  | cons c cs ih =>
    rw [List.cons_append, words, words, ih, List.append_assoc]
    rfl

theorem braces_after (s : WordSearch) (cs : List Char) : (s.after cs).braces = s.braces.after cs := by
  induction cs generalizing s with
  | nil => rfl
  | cons c cs ih => exact ih (s.next c)

theorem words_of_extends {s : WordSearch} {c : Char} (h : s.extends? c = true) (r : List Char) :
    s.words (c :: r) = words ⟨s.braces.next c, c :: s.word⟩ r := by
  rw [words, ended, next, if_pos h, if_pos h, List.nil_append]

theorem words_of_not_extends {s : WordSearch} {c : Char} (h : s.extends? c = false) (r : List Char) :
    s.words (c :: r) = endedWord s.word ++ words ⟨s.braces.next c, []⟩ r := by
  rw [words, ended, next, if_neg (Bool.eq_false_iff.mp h), if_neg (Bool.eq_false_iff.mp h)]

theorem words_half {cs : List Char} (hcs : cs.head? ≠ some '{') :
    words ⟨.half, []⟩ cs = words ⟨.deep 0, []⟩ cs := by
  cases cs with
  | nil => rfl
  | cons c cs =>
    have hc : c ≠ '{' := fun hc => hcs (congrArg some hc)
    rw [words, words, next, next, Braces.next_half hc]
    rfl

end WordSearch

theorem ne_brace_of_isWordChar {c : Char} (hc : isWordChar c = true) : c ≠ '{' ∧ c ≠ '}' := by
  constructor <;>
    · rintro rfl
      exact absurd hc (by decide)

open WordSearch in
/-- The search with its depth and its word is the search from character to character. -/
theorem holeWords_eq (depth : Nat) (word cs : List Char) (hword : depth = 0 → word = []) :
    holeWords depth word cs = words ⟨.ofDepth depth, word⟩ cs := by
  fun_induction holeWords depth word cs with
  | case1 => rfl
  | case2 depth word c r hc ih =>
    obtain ⟨hopen, hshut⟩ := ne_brace_of_isWordChar hc.2
    cases depth with
    | zero => exact absurd rfl hc.1
    | succ more =>
      have hextends : extends? ⟨.ofDepth (more + 1), word⟩ c = true := hc.2
      rw [ih nofun, words_of_extends hextends]
      simp [Braces.ofDepth, Braces.next, hopen, hshut]
  | case3 word r _ ih =>
    -- Two braces outside of holes are two steps here, over `half` and back.
    rw [hword rfl, ih fun _ => rfl]
    rfl
  | case4 word depth r hsingle _ ih =>
    rw [ih nofun, words_of_not_extends (by simp [extends?, show isWordChar '{' = false by decide])]
    cases depth with
    | zero =>
      have hhead : r.head? ≠ some '{' := fun hhead => by
        obtain ⟨r', hr⟩ := List.head?_eq_some_iff.mp hhead
        exact hsingle r' rfl hr
      -- The brace is not doubled, so `half` is as good as one open brace.
      exact congrArg (endedWord word ++ ·) (words_half hhead).symm
    | succ more => rfl
  | case5 depth word r _ _ ih =>
    rw [ih fun _ => rfl,
      words_of_not_extends (by simp [extends?, show isWordChar '}' = false by decide])]
    cases depth <;> rfl
  | case6 depth word c r hc hopen hshut ih =>
    have hno : extends? ⟨.ofDepth depth, word⟩ c = false := by
      cases depth with
      | zero => rfl
      | succ more => simpa [extends?, Braces.ofDepth, Braces.depth] using hc
    rw [ih fun _ => rfl, words_of_not_extends hno]
    cases depth <;> simp [Braces.ofDepth, Braces.next, hopen, hshut]

/-! ### Where a word is found -/

namespace WordSearch

theorem toList_of_mem_endedWord {word : List Char} {y : String} (hy : y ∈ endedWord word) :
    y.toList = word.reverse := by
  unfold endedWord at hy
  split at hy
  case h_1 => exact absurd hy List.not_mem_nil
  case h_2 c r hword =>
    split at hy
    · exact absurd hy List.not_mem_nil
    · rw [List.mem_singleton.mp hy, hword, String.toList_ofList]

/-- A word that is found is no longer than the start that was read of it and the text. -/
theorem length_le_of_mem_words {s : WordSearch} {cs : List Char} {y : String}
    (hy : y ∈ s.words cs) : y.toList.length ≤ s.word.length + cs.length := by
  induction cs generalizing s with
  | nil => exact absurd hy List.not_mem_nil
  | cons c cs ih =>
    cases hc : s.extends? c with
    | true =>
      rw [words_of_extends hc] at hy
      have := ih hy
      simp only [List.length_cons] at this ⊢
      omega
    | false =>
      rw [words_of_not_extends hc] at hy
      rcases List.mem_append.mp hy with hy | hy
      · rw [toList_of_mem_endedWord hy, List.length_reverse]
        omega
      · have := ih hy
        simp only [List.length_cons, List.length_nil] at this ⊢
        omega

/-- The first word that is found goes on with what was read of it, and the others are read later. -/
theorem prefix_or_length_le_of_mem_words {s : WordSearch} {cs : List Char} {y : String}
    (hy : y ∈ s.words cs) : s.word.reverse <+: y.toList ∨ y.toList.length ≤ cs.length := by
  induction cs generalizing s with
  | nil => exact absurd hy List.not_mem_nil
  | cons c cs ih =>
    cases hc : s.extends? c with
    | true =>
      rw [words_of_extends hc] at hy
      refine (ih hy).imp (fun hprefix => ?_) Nat.le_succ_of_le
      rw [List.reverse_cons] at hprefix
      exact (List.prefix_append _ _).trans hprefix
    | false =>
      rw [words_of_not_extends hc] at hy
      rcases List.mem_append.mp hy with hy | hy
      · rw [toList_of_mem_endedWord hy]
        exact .inl List.prefix_rfl
      · have := length_le_of_mem_words hy
        simp only [List.length_cons, List.length_nil] at this ⊢
        omega

/-- What is passed where no brace is open. -/
theorem words_start_append {x : List Char} (hx : '{' ∉ x) (b : List Char) :
    start.words (x ++ b) = start.words b := by
  induction x with
  | nil => rfl
  | cons c x ih =>
    obtain ⟨hc, hx⟩ := List.ne_and_not_mem_of_not_mem_cons hx
    have hnext : Braces.shut.next c = .shut := if_neg (Ne.symm hc)
    rw [List.cons_append, words_of_not_extends rfl]
    change [] ++ words ⟨Braces.shut.next c, []⟩ (x ++ b) = _
    rw [hnext]
    exact ih hx

/-- A word is read where a brace is open. -/
theorem words_append_of_open {s : WordSearch} (hs : s.braces.depth ≠ 0) {x : List Char}
    (hx : ∀ c ∈ x, isWordChar c = true) (b : List Char) :
    s.words (x ++ b) = words ⟨s.braces.after x, x.reverse ++ s.word⟩ b := by
  induction x generalizing s with
  | nil => rfl
  | cons c x ih =>
    obtain ⟨hc, hx⟩ := List.forall_mem_cons.mp hx
    have hextends : s.extends? c = true := by simp [extends?, hs, hc]
    obtain ⟨hopen, hshut⟩ := ne_brace_of_isWordChar hc
    rw [List.cons_append, words_of_extends hextends, ih (s := ⟨s.braces.next c, c :: s.word⟩) _ hx]
    · rw [List.reverse_cons, List.append_assoc]
      rfl
    · rwa [Braces.depth_next hopen hshut]

/-- When a word is being read behind a text. -/
theorem word_after_start_eq_nil_iff (before : List Char) :
    (start.after before).word = [] ↔ ((Braces.shut.after before).depth ≠ 0 →
      ∀ c, before.getLast? = some c → isWordChar c = false) := by
  rcases List.eq_nil_or_concat' before with rfl | ⟨init, c, rfl⟩
  · exact iff_of_true rfl nofun
  · have hlast : ∀ d, (init ++ [c]).getLast? = some d ↔ d = c := by
      simp [eq_comm]
    have hafter : start.after (init ++ [c]) = (start.after init).next c := by
      simp [after]
    have hbraces : (start.after init).braces = Braces.shut.after init := braces_after _ _
    rw [Braces.after_append, Braces.after_cons, Braces.after_nil, hafter]
    simp only [hlast, forall_eq, next, extends?, hbraces]
    by_cases hc : isWordChar c = true
    · -- The last character leaves the depth as it is, so it was read as part of a word or passed.
      obtain ⟨hopen, hshut⟩ := ne_brace_of_isWordChar hc
      rw [Braces.depth_next hopen hshut]
      by_cases hdepth : (Braces.shut.after init).depth = 0 <;> simp [hc, hdepth]
    · simp [hc]

theorem after_start_of_shut {before : List Char} (h : (Braces.shut.after before).depth = 0) :
    start.after before = start := by
  have hword := (word_after_start_eq_nil_iff before).mpr fun hopen => absurd h hopen
  have hbraces : (start.after before).braces = .shut := by
    rw [braces_after]
    cases hb : Braces.shut.after before with
    | shut => exact hb
    | half => rw [hb] at h; cases h
    | deep more => rw [hb] at h; cases h
  calc start.after before
    _ = ⟨(start.after before).braces, (start.after before).word⟩ := rfl
    _ = start := by rw [hbraces, hword]; rfl

end WordSearch

/-- A word behind this text is found: a brace is open there, and no other word ends there. -/
def Found (before : List Char) : Prop :=
  (Braces.shut.after before).depth ≠ 0 ∧ ∀ c, before.getLast? = some c → isWordChar c = false

instance (before : List Char) : Decidable (Found before) :=
  decidable_of_iff ((Braces.shut.after before).depth ≠ 0 ∧
    before.getLast?.all (!isWordChar ·) = true) (by simp [Found, Option.all_eq_true])

section Places

open WordSearch

variable {before x back : List Char}

theorem holeWords_append (before x back : List Char) :
    holeWords 0 [] (before ++ x ++ back) =
      start.words before ++ (start.after before).words (x ++ back) := by
  rw [holeWords_eq 0 [] _ fun _ => rfl, List.append_assoc, ← words_append]
  rfl

theorem mem_holeWords_of_found (hfound : Found before) (hx : IsName x) (hat : '@' ∉ x)
    (hne : back ≠ []) (hback : ∀ c, back.head? = some c → isWordChar c = false) :
    String.ofList x ∈ holeWords 0 [] (before ++ x ++ back) := by
  obtain ⟨hopen, hlast⟩ := hfound
  have hword : ∀ c ∈ x, isWordChar c = true := fun c hc => by
    have hpart := hx.isWordPart c hc
    simp only [isWordPart, Bool.or_eq_true, beq_iff_eq] at hpart
    exact hpart.resolve_right fun heq => hat (heq ▸ hc)
  obtain ⟨d, back, rfl⟩ := List.exists_cons_of_ne_nil hne
  have hd : extends? ⟨(start.after before).braces.after x, x.reverse ++ []⟩ d = false := by
    rw [extends?, hback d rfl, Bool.and_false]
  rw [holeWords_append, words_append_of_open (by rwa [braces_after]) hword,
    (word_after_start_eq_nil_iff before).mpr fun _ => hlast, words_of_not_extends hd]
  refine List.mem_append_right _ (List.mem_append_left _ ?_)
  obtain ⟨c, r, rfl⟩ := List.exists_cons_of_ne_nil hx.ne_nil
  rw [List.append_nil, endedWord, List.reverse_reverse]
  simp [hx.head_isDigit c rfl]

/-- A word that is longer than all the rest of a text can only be found at its own place. -/
theorem found_of_mem_holeWords (hword : ∀ c ∈ x, isWordChar c = true)
    (hlong : before.length + back.length < x.length)
    (hmem : String.ofList x ∈ holeWords 0 [] (before ++ x ++ back)) : Found before := by
  have hstart : ∀ {cs : List Char}, String.ofList x ∈ start.words cs → x.length ≤ cs.length := by
    intro cs hmem
    simpa [start] using length_le_of_mem_words hmem
  rw [holeWords_append] at hmem
  -- It is too long for a word of the text before it.
  have hmem := (List.mem_append.mp hmem).resolve_left fun hearly => by
    have := hstart hearly
    omega
  have hopen : (Braces.shut.after before).depth ≠ 0 := by
    intro hshut
    -- Outside of holes it is passed, and it is too long for a word of the text behind it.
    have hbrace : '{' ∉ x := fun hbrace => (ne_brace_of_isWordChar (hword _ hbrace)).1 rfl
    rw [after_start_of_shut hshut, words_start_append hbrace] at hmem
    have := hstart hmem
    omega
  refine ⟨hopen, (word_after_start_eq_nil_iff before).mp ?_ hopen⟩
  -- Behind the start of a word a longer word would be found.
  rw [words_append_of_open (by rwa [braces_after]) hword] at hmem
  refine List.eq_nil_of_length_eq_zero ?_
  rcases prefix_or_length_le_of_mem_words hmem with hprefix | hle
  · have := hprefix.length_le
    simp only [List.length_reverse, List.length_append, String.toList_ofList] at this
    omega
  · rw [String.toList_ofList] at hle
    omega

/-- **Where words are found**: a word at some place of a literal, whichever it is, is found there
if and only if a brace is open and no word ends right before it. -/
theorem forall_mem_holeWords_iff (hne : back ≠ [])
    (hback : ∀ c, back.head? = some c → isWordChar c = false) :
    (∀ x, IsName x → '@' ∉ x → String.ofList x ∈ holeWords 0 [] (before ++ x ++ back)) ↔
      Found before := by
  refine ⟨fun hall => ?_, fun hfound x hx hat => mem_holeWords_of_found hfound hx hat hne hback⟩
  -- A name is taken that is longer than all the rest.
  have hletter : ∀ c ∈ List.replicate (before.length + back.length + 1) 'a',
      isWordChar c = true ∧ c ≠ '@' := fun c hc => by
    rw [List.eq_of_mem_replicate hc]
    decide
  refine found_of_mem_holeWords (fun c hc => (hletter c hc).1) ?_ (hall _ ?_ ?_)
  · rw [List.length_replicate]
    exact Nat.lt_succ_self _
  · refine ⟨'a', _, List.replicate_succ, rfl, fun c hc => (hletter c ?_).1⟩
    exact List.mem_cons_of_mem _ hc
  · exact fun hat => (hletter _ hat).2 rfl

end Places

/-! ### Braces counted along the parts -/

/-- No brace is closed in the text that was not opened in it. -/
def ClosesOwn (text : List Char) : Prop :=
  ∀ n, (text.take n).count '}' ≤ (text.take n).count '{'

theorem closesOwn_of_notMem {text : List Char} (h : '}' ∉ text) : ClosesOwn text := fun n => by
  rw [List.count_eq_zero_of_not_mem fun hmem => h (List.mem_of_mem_take hmem)]
  exact Nat.zero_le _

/-- The part does not lead the count astray: it is no escaped brace, and no literal that closes
more braces than it opens. -/
structure Part.Harmless (p : Part) : Prop where
  escape : p.kind = .escape → '{' ∉ p.text
  literal : p.kind = .token .str ∨ p.kind = .token .char → ClosesOwn p.text

/-- The number of braces that are open for the scanner of the literal, that of the hole included. -/
def Mode.depth : Mode → Nat
  | .text => 0
  | .hole depth => depth + 1

/-- The count has as many braces open as the scanner, or more. A brace that may still be doubled is
that of a hole. -/
structure Covers (b : Braces) (mode : Mode) (r : List Char) : Prop where
  depth_le : mode.depth ≤ b.depth
  half : b = .half → mode ≠ .text ∧ r.head? ≠ some '{'

namespace Braces

/-- A text that closes at most `spare` braces that it did not open leaves the other ones open. -/
theorem exists_after_deep {text : List Char} {spare more : Nat} (hspare : spare ≤ more)
    (h : ∀ n, (text.take n).count '}' ≤ spare + (text.take n).count '{') :
    ∃ more', (deep more).after text = deep more' ∧ more ≤ more' + spare := by
  induction text generalizing spare more with
  | nil => exact ⟨more, rfl, Nat.le_add_right _ _⟩
  | cons c text ih =>
    -- What is open before the first character is left to the rest, one more or one less.
    have htail := fun n => h (n + 1)
    simp only [List.take_succ_cons, List.count_cons] at htail
    rw [after_cons, next]
    by_cases hopen : c = '{'
    · subst hopen
      have hmore : ∀ n, (text.take n).count '}' ≤ spare + 1 + (text.take n).count '{' := fun n => by
        simpa [Nat.add_comm, Nat.add_left_comm] using htail n
      obtain ⟨more', hafter, hle⟩ := ih (Nat.succ_le_succ hspare) hmore
      exact ⟨more', hafter, by omega⟩
    by_cases hshut : c = '}'
    · subst hshut
      have hone : 1 ≤ spare := by simpa using htail 0
      obtain ⟨spare, rfl⟩ := Nat.exists_eq_add_of_le' hone
      obtain ⟨more, rfl⟩ := Nat.exists_eq_add_of_le' (Nat.le_trans hone hspare)
      have hless : ∀ n, (text.take n).count '}' ≤ spare + (text.take n).count '{' := fun n => by
        have hn : (text.take n).count '}' + 1 ≤ spare + 1 + (text.take n).count '{' := by
          simpa using htail n
        omega
      obtain ⟨more', hafter, hle⟩ := ih (Nat.le_of_succ_le_succ hspare) hless
      exact ⟨more', hafter, by omega⟩
    · rw [if_neg hopen, if_neg hshut]
      exact ih hspare fun n => by simpa [hopen, hshut] using htail n

/-- A text that opens no hole and closes only its own braces leaves the open ones open. -/
theorem exists_after_of_closesOwn {b : Braces} (hb : b.depth ≠ 0) {c : Char} {text : List Char}
    (hc : c ≠ '{') (h : ClosesOwn (c :: text)) :
    ∃ more, b.after (c :: text) = deep more ∧ b.depth ≤ more + 1 := by
  have hdeep : ∀ more, ∃ more', (deep more).after (c :: text) = deep more' ∧ more ≤ more' :=
    fun more => exists_after_deep (Nat.zero_le more) fun n => (h n).trans (Nat.le_add_left _ _)
  cases b with
  | shut => exact absurd rfl hb
  | half =>
    obtain ⟨more, hafter, -⟩ := hdeep 0
    rw [after_cons, next_half hc]
    exact ⟨more, hafter, Nat.le_add_left _ _⟩
  | deep more =>
    obtain ⟨more', hafter, hle⟩ := hdeep more
    exact ⟨more', hafter, Nat.succ_le_succ hle⟩

end Braces

variable {r body marks name : List Char} {mode : Mode} {verbatim : Bool}

/-- A token of a hole that is no operator does not start with a brace. -/
theorem ne_brace_of_tokenAt {c : Char} {kind : Token.Kind} {t : Cut (c :: r)}
    (h : Piece.TokenAt c r kind t) (hkind : kind ≠ .punct) : c ≠ '{' := by
  rintro rfl
  cases h with
  | string ho => cases ho
  | char hquote => exact absurd hquote (by decide)
  | number _ _ hnumber => cases hnumber
  | word _ _ _ hname => cases hname
  | punct => exact hkind rfl

/-- Only literals have braces in them. -/
theorem closesOwn_of_tokenAt {c : Char} {kind : Token.Kind} {t : Cut (c :: r)}
    (h : Piece.TokenAt c r kind t) (hkind : kind ≠ .punct)
    (hliteral : kind = .str ∨ kind = .char → ClosesOwn t.read) : ClosesOwn t.read := by
  have hbrace : isWordChar '}' = false := by decide
  cases h with
  | string => exact hliteral (.inl rfl)
  | char => exact hliteral (.inr rfl)
  | number _ _ hnumber =>
    refine closesOwn_of_notMem fun hmem => ?_
    rcases forall_mem_numberRest_of_startsNumber hnumber _ hmem with hword | hdot
    · rw [hbrace] at hword
      cases hword
    · exact absurd hdot (by decide)
  | word _ _ _ hname =>
    refine closesOwn_of_notMem fun hmem => ?_
    have hpart := (IsName.of_run hname).isWordPart _ hmem
    exact absurd hpart (by decide)
  | punct => exact absurd rfl hkind

theorem covers_text {b : Braces} (hb : b ≠ .half) (r : List Char) : Covers b .text r :=
  ⟨Nat.zero_le _, fun hhalf => absurd hhalf hb⟩

theorem covers_deep {more : Nat} (h : mode.depth ≤ more + 1) (r : List Char) :
    Covers (.deep more) mode r :=
  ⟨h, nofun⟩

/-- **A harmless part** opens and closes as many braces for the count as for the scanner, or leaves
more of them open. -/
theorem Covers.readsPart {b : Braces} {mode' : Mode} {part : Part}
    (h : Covers b mode (part.text ++ r)) (hpart : ReadsPart verbatim mode part r mode')
    (hharmless : part.Harmless) :
    Covers (b.after part.text) mode' r := by
  obtain ⟨hdepth, hhalf⟩ := h
  cases hpart with
  | plain hquote hescape hbrace => exact covers_text (Braces.next_ne_half hbrace _) r
  | escape d =>
    have hd : d ≠ '{' := by
      rintro rfl
      exact hharmless.escape rfl (by decide)
    exact covers_text (Braces.next_ne_half hd _) r
  | quotes => exact covers_text (Braces.next_ne_half (by decide) _) r
  | braces =>
    -- In the text of the literal the count is never in the middle of two braces.
    cases b with
    | shut => exact covers_text (by nofun) r
    | half => exact absurd rfl (hhalf rfl).1
    | deep more => exact covers_text (by nofun) r
  | enter hsingle =>
    cases b with
    | shut => exact ⟨Nat.le_refl 1, fun _ => ⟨nofun, hsingle⟩⟩
    | half => exact absurd rfl (hhalf rfl).1
    | deep more => exact covers_deep (Nat.le_add_left 1 _) r
  | leave => exact covers_text (Braces.next_ne_half (by decide) _) r
  | up depth =>
    cases b with
    | shut => exact absurd hdepth (Nat.not_succ_le_zero _)
    | half => exact absurd rfl (hhalf rfl).2
    | deep more => exact covers_deep (Nat.succ_le_succ hdepth) r
  | down depth =>
    have htwo : 2 ≤ b.depth := Nat.le_trans (Nat.le_add_left 2 depth) hdepth
    cases b with
    | shut => exact absurd htwo (by decide)
    | half => exact absurd htwo (by decide)
    | deep more =>
      cases more with
      | zero => exact absurd htwo (by decide)
      | succ more =>
        have hless : depth + 1 ≤ more + 1 := Nat.le_of_succ_le_succ hdepth
        exact covers_deep hless r
  | token depth htoken hkind hread =>
    -- The scanner steps over the token, the count goes through it.
    have hopen : b.depth ≠ 0 := Nat.ne_of_gt (Nat.lt_of_lt_of_le (Nat.succ_pos depth) hdepth)
    have hcloses := closesOwn_of_tokenAt htoken hkind fun hliteral => by
      rw [hread]
      exact hharmless.literal (hliteral.imp (congrArg _) (congrArg _))
    rw [hread] at hcloses
    obtain ⟨more, hafter, hle⟩ :=
      Braces.exists_after_of_closesOwn hopen (ne_brace_of_tokenAt htoken hkind) hcloses
    rw [hafter]
    exact covers_deep (hdepth.trans hle) r
  | other depth ho hnumber hname hc =>
    refine ⟨?_, fun hhalf => absurd hhalf (Braces.next_ne_half hc.1 _)⟩
    rwa [Braces.after_cons, Braces.after_nil, Braces.depth_next hc.1 hc.2.1]

/-- **Along harmless parts** the count has as many braces open as the scanner, or more. -/
theorem ReadsParts.covers {parts : List Part} (h : ReadsParts verbatim body parts mode r)
    (hharmless : ∀ p ∈ parts, p.Harmless) :
    Covers (Braces.shut.after (parts.flatMap Part.text)) mode r := by
  induction h with
  | start => exact covers_text (by nofun) body
  | next _ hpart ih =>
    obtain ⟨hbefore, hlast⟩ := List.forall_mem_append.mp hharmless
    rw [List.flatMap_append, List.flatMap_singleton, Braces.after_append]
    exact (ih hbefore).readsPart hpart (hlast _ List.mem_cons_self)

/-! ### Names in holes -/

/-- What stands before a name in a literal, the mark of the name included. -/
def textBefore (marks : List Char) (front : List Part) (name : List Char) : List Char :=
  marks ++ '"' :: (front.flatMap Part.text ++ name.takeWhile (· == '@'))

theorem isInterpolated_ofList (hmarks : ∀ c ∈ marks, isMark c = true) (hdollar : '$' ∈ marks)
    (r : List Char) :
    isInterpolated (String.ofList (marks ++ r)) = true := by
  rw [isInterpolated, String.toList_ofList]
  induction marks with
  | nil => exact absurd hdollar List.not_mem_nil
  | cons c marks ih =>
    obtain ⟨hc, hothers⟩ := List.forall_mem_cons.mp hmarks
    simp only [isMark, Bool.or_eq_true, beq_iff_eq] at hc
    rcases hc with rfl | rfl
    · exact ih hothers ((List.mem_cons.mp hdollar).resolve_left (by decide))
    · rfl

/-- A name in a hole is an identifier, and no character of a word follows it. -/
theorem ReadsPart.isName {mode' : Mode}
    (h : ReadsPart verbatim mode ⟨.token .ident, name⟩ r mode') :
    IsName name ∧ (∀ c, r.head? = some c → isWordChar c = false) ∧ mode.depth ≠ 0 := by
  cases h with
  | @token depth c a r kind t htoken hkind hread =>
    cases htoken with
    | word _ _ _ hname =>
      have ha : (a ++ r).takeWhile isWordChar = a := (List.cons.inj hread).2
      have hr : (a ++ r).dropWhile isWordChar = r := by
        have hall := List.takeWhile_append_dropWhile (p := isWordChar) (l := a ++ r)
        rw [ha] at hall
        exact List.append_cancel_left hall
      refine ⟨ha ▸ IsName.of_run hname, ?_, Nat.succ_ne_zero depth⟩
      rw [← hr]
      exact head_dropWhile_fails isWordChar (a ++ r)

/-- A name without its mark is a name. -/
theorem isName_dropWhile_at (h : IsName name) :
    IsName (name.dropWhile (· == '@')) ∧ '@' ∉ name.dropWhile (· == '@') := by
  obtain ⟨c, r, rfl, hname, hr⟩ := h
  have hat : '@' ∉ r := fun hmem => absurd (hr _ hmem) (by decide)
  by_cases hc : c = '@'
  · subst hc
    cases r with
    | nil => cases hname
    | cons d r =>
      have hd : d ≠ '@' := fun hd => hat (hd ▸ List.mem_cons_self)
      have hword : isWordStart d = true := hname
      have hdrop : ('@' :: d :: r).dropWhile (· == '@') = d :: r := by simp [hd]
      rw [hdrop]
      refine ⟨⟨d, r, rfl, ?_, fun e he => hr e (List.mem_cons_of_mem _ he)⟩, hat⟩
      rw [Piece.startsName, hword, Bool.true_or]
  · rw [List.dropWhile_cons_of_neg (by simpa using hc)]
    exact ⟨⟨c, r, rfl, hname, hr⟩, fun hmem => (List.mem_cons.mp hmem).elim (hc ∘ Eq.symm) hat⟩

/-- Behind harmless parts a name stands in a hole for the count too. -/
theorem depth_textBefore_ne_zero (hmarks : ∀ c ∈ marks, isMark c = true) {front : List Part}
    (h : ReadsParts verbatim body front mode r) (hmode : mode.depth ≠ 0)
    (hharmless : ∀ p ∈ front, p.Harmless) (name : List Char) :
    (Braces.shut.after (textBefore marks front name)).depth ≠ 0 := by
  have hstart : Braces.shut.after (marks ++ ['"']) = .shut := by
    refine Braces.after_shut fun hbrace => ?_
    rcases List.mem_append.mp hbrace with hmark | hquote
    · exact absurd (hmarks _ hmark) (by decide)
    · exact absurd hquote (by decide)
  have hat : ∀ c ∈ name.takeWhile (· == '@'), c ≠ '{' ∧ c ≠ '}' := fun c hc => by
    rw [beq_iff_eq.mp (List.mem_takeWhile_imp (p := (· == '@')) hc)]
    decide
  have hcovers := (h.covers hharmless).depth_le
  rw [textBefore, List.append_cons, Braces.after_append, hstart, Braces.after_append,
    Braces.depth_after hat]
  omega

theorem Interpolated.idents_eq {t : Token} (h : Interpolated t marks body) (r : List Char) :
    idents { t with text := String.ofList (marks ++ r) } = holeWords 0 [] (marks ++ r) := by
  have hmarked := isInterpolated_ofList h.areMarks h.dollar r
  simp only [idents, h.isStr, hmarked, if_true, String.toList_ofList]

/-- Something follows a name in a hole. -/
theorem ReadsParts.ne_nil_of_isName {front parts : List Part}
    (h : ReadsParts verbatim body front mode (name ++ r)) (hname : IsName name)
    (hparts : ReadsParts verbatim body parts .text ['"']) : r ≠ [] := by
  rintro rfl
  obtain ⟨c, hlast, hc⟩ := hname.exists_isWordChar
  have hends := congrArg List.getLast? (h.append_eq.trans hparts.append_eq.symm)
  rw [List.append_nil, List.getLast?_append, hlast, List.getLast?_concat] at hends
  cases hends
  exact absurd hc (by decide)

theorem mentions_of_mem_idents {t : Token} {run : List Token} (ht : t ∈ run)
    (h : String.ofList (name.dropWhile (· == '@')) ∈ idents t) :
    (Verbatim.ofTokens run).mentions (String.ofList name) = true := by
  refine List.any_eq_true.mpr ⟨_, List.mem_flatMap.mpr ⟨t, ht, h⟩, ?_⟩
  have hbare : (name.dropWhile (· == '@')).dropWhile (· == '@') = name.dropWhile (· == '@') :=
    dropWhile_append_of_fails (a := []) nofun (head_dropWhile_fails _ name)
  rw [Identifier.same, Identifier.bare, Identifier.bare, Identifier.bareChars, Identifier.bareChars,
    String.toList_ofList, String.toList_ofList, hbare, beq_self_eq_true]

/-- **Names in holes are found** unless the count of braces is lost. An interpolated literal is read
in parts up to its end. For every name among the parts:

* a name at its place, whichever it is, is found there if and only if the braces counted before it
  leave a hole open and it is not glued to a word;
* a hole is open there if no part before it is an escaped brace or a literal that closes more braces
  than it opens;
* if it is found, all code with the literal in it mentions the name. -/
theorem hole_name_found_iff {source : String} {base : Nat} {ts : List Token} {t : Token}
    {marks body : List Char} (hts : tokenize source base = .ok ts) (ht : t ∈ ts)
    (h : Interpolated t marks body) :
    (∃ parts, ReadsParts (marks.contains '@') body parts .text ['"']) ∧
    ∀ front name mode back,
      ReadsParts (marks.contains '@') body (front ++ [⟨.token .ident, name⟩]) mode back →
      ((∀ x, IsName x → '@' ∉ x → String.ofList x ∈
          idents { t with text := String.ofList (textBefore marks front name ++ x ++ back) }) ↔
        Found (textBefore marks front name)) ∧
      ((∀ p ∈ front, p.Harmless) → (Braces.shut.after (textBefore marks front name)).depth ≠ 0) ∧
      (Found (textBefore marks front name) →
        String.ofList (name.dropWhile (· == '@')) ∈ idents t ∧
        ∀ run, t ∈ run → (Verbatim.ofTokens run).mentions (String.ofList name) = true) := by
  obtain ⟨parts, hparts⟩ := (h.accepted hts ht).exists_parts .start
  refine ⟨⟨parts, hparts⟩, fun front name mode back hname => ?_⟩
  obtain ⟨mode', hfront, hpart⟩ := hname.exists_of_concat
  obtain ⟨hident, hback, hmode⟩ := hpart.isName
  obtain ⟨hbare, hat⟩ := isName_dropWhile_at hident
  have hne := hfront.ne_nil_of_isName hident hparts
  -- Whatever stands in the place of the name, the literal is searched for holes.
  have hidents : ∀ x, idents { t with
      text := String.ofList (textBefore marks front name ++ x ++ back) } =
      holeWords 0 [] (textBefore marks front name ++ x ++ back) := fun x => by
    rw [textBefore, List.append_assoc, List.append_assoc, h.idents_eq]
  refine ⟨?_, fun hharmless => depth_textBefore_ne_zero h.areMarks hfront hmode hharmless name,
    fun hfound => ?_⟩
  · simp only [hidents]
    exact forall_mem_holeWords_iff hne hback
  · have hmem := mem_holeWords_of_found hfound hbare hat hne hback
    -- The name without its `@` in the place of the name is the literal itself.
    have hspell : String.ofList (textBefore marks front name ++ name.dropWhile (· == '@') ++ back) =
        t.text := by
      rw [h.spell, ← hfront.append_eq, textBefore]
      simp
    rw [← hidents, hspell] at hmem
    exact ⟨hmem, fun run hrun => mentions_of_mem_idents hrun hmem⟩

/-- A literal with a closing brace in a literal of its hole, and a name behind that. -/
def closedEarly : List Char :=
  "\x7b\"\x7d\"+x\x7d\"".toList

/-- The parts of the literal before the name. -/
def closedEarlyFront : List Part :=
  [⟨.plain, ['{']⟩, ⟨.token .str, ['"', '}', '"']⟩, ⟨.plain, ['+']⟩]

theorem readsParts_closedEarly :
    ReadsParts false closedEarly (closedEarlyFront ++ [⟨.token .ident, ['x']⟩]) (.hole 0)
      ['}', '"'] := by
  have hclose : ClosesString 0 ['}', '"'] ['+', 'x', '}', '"'] :=
    ⟨rfl, .plain (by decide) (by decide) .close, nofun, by decide⟩
  obtain ⟨o, ho, t, hclosed, hread, -⟩ := hclose.readsString
  have henter : ReadsParts false closedEarly [⟨.plain, ['{']⟩] (.hole 0)
      ['"', '}', '"', '+', 'x', '}', '"'] :=
    .next .start (.enter (by decide))
  have hliteral : ReadsParts false closedEarly (closedEarlyFront.take 2) (.hole 0)
      ['+', 'x', '}', '"'] :=
    .next henter (.token 0 (.string ho hclosed) nofun hread)
  have hplus : ReadsParts false closedEarly closedEarlyFront (.hole 0) ['x', '}', '"'] :=
    .next hliteral (.other 0 rfl rfl rfl (by decide))
  exact .next hplus (.token 0 (.word rfl (by decide) rfl rfl) nofun rfl)

/-- The name is read as code of a hole, and not found. -/
theorem hole_name_found_iff_closedEarly :
    ∃ ts t, tokenize (String.ofList ('$' :: '"' :: closedEarly)) 0 = .ok ts ∧ t ∈ ts ∧
      Interpolated t ['$'] closedEarly ∧
      ReadsParts false closedEarly (closedEarlyFront ++ [⟨.token .ident, ['x']⟩]) (.hole 0)
        ['}', '"'] ∧
      (¬∀ x, IsName x → '@' ∉ x → String.ofList x ∈ idents { t with
        text := String.ofList (textBefore ['$'] closedEarlyFront ['x'] ++ x ++ ['}', '"']) }) ∧
      (Verbatim.ofTokens [t]).mentions "x" = false := by
  have hrun : (tokenize (String.ofList ('$' :: '"' :: closedEarly)) 0).toOption.map (fun ts =>
      ts.map fun t => (t.kind, t.text, idents t)) =
      some [(.str, String.ofList ('$' :: '"' :: closedEarly), []), (.eof, "", [])] := by
    decide +kernel
  obtain ⟨ts, hts, hrun⟩ := exists_ok_of_map hrun
  obtain ⟨t, ts, rfl⟩ : ∃ t ts', ts = t :: ts' := by
    cases ts with
    | nil => cases hrun
    | cons t ts => exact ⟨t, ts, rfl⟩
  have hhead := (List.cons.inj hrun).1
  simp only [Prod.mk.injEq] at hhead
  obtain ⟨hkind, htext, hidents⟩ := hhead
  have hinterpolated : Interpolated t ['$'] closedEarly :=
    ⟨hkind, htext, List.forall_mem_singleton.mpr rfl, by decide, by decide⟩
  have hplace := (hole_name_found_iff hts List.mem_cons_self hinterpolated).2 _ _ _ _
    readsParts_closedEarly
  refine ⟨t :: ts, t, hts, List.mem_cons_self, hinterpolated, readsParts_closedEarly, ?_, ?_⟩
  · rw [hplace.1]
    decide
  · simp [Verbatim.mentions, Verbatim.ofTokens, hidents]

end ClassSugar.Token
