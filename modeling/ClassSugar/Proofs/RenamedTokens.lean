import ClassSugar.Proofs.RecutPieces

/-!
# Renaming agrees with the tokens of a text

A text in which an identifier is renamed has the tokens that it had before, but for those that are
this identifier. The scanner that renames decides on its own which of them it replaces
(`isReplaced`): it takes the dot at the end of a comment for one before a name, loses sight of a dot
behind a comment, and takes names that touch each other for one word.

* `Renames.map_form_ofPieces` — the tokens after renaming.
* `tokens_renamed_iff` — the same for a text, and when all identifiers are replaced that follow no
  dot, and no others.
-/

namespace ClassSugar

open ClassSugar.Text

namespace Renaming

open ClassSugar.Token

/-! ### Tokens -/

/-- What a token is, wherever it stands. -/
def form (t : Token) : Token.Kind × String :=
  (t.kind, t.text)

/-- The token is a dot. -/
def isDot (t : Token) : Bool :=
  t.isPunct "." || t.isPunct "?."

/-- The scanner finds a dot before a token: what comes last before it, the blanks aside, is a comment
that ends with one, or without comments a token that is one. -/
def behindDot (prev : Option Token) (leading : List Comment) : Bool :=
  match leading.getLast? with
  | some comment => comment.text.toList.getLast? == some '.'
  | none => prev.any isDot

/-- The token goes on with the word of the scanner that the token before it belongs to. -/
def continuesWord (prev : Option Token) (t : Token) : Bool :=
  t.gap == "" && prev.any fun s => s.kind == .ident || s.kind == .number

/-- The word of the scanner goes on behind the token. -/
def isContinued (next : Option Token) : Bool :=
  next.any fun u => (u.gap.toList ++ u.text.toList).head? == some '@'

/-- The forms of tokens, with `new` in the place of those that pass a test. The test sees the tokens
before and behind a token too. -/
def substitute (new : String) (test : Option Token → Token → Option Token → Bool) :
    Option Token → List Token → List (Token.Kind × String)
  | _, [] => []
  | prev, t :: ts =>
    (if test prev t ts.head? then (.ident, new) else form t) :: substitute new test (some t) ts

/-- The scanner replaces the token. -/
def isReplaced (old : String) (prev : Option Token) (t : Token) (next : Option Token) : Bool :=
  t.isIdent old && !continuesWord prev t && !isContinued next && !behindDot prev t.leading

variable {q : Place} {gap text r : List Char} {leading : List Comment} {ps : List Piece} {c : Char}
  {old : String}

theorem map_head?_ofPieces (hfit : ∀ p ∈ ps, p.Fits) :
    (ofPieces q gap leading ps).head?.map (fun u => (u.gap.toList ++ u.text.toList).head?) =
      some (gap ++ ps.flatMap Piece.text).head? := by
  induction ps generalizing q gap leading with
  | nil => simp [ofPieces]
  | cons p ps ih =>
    obtain ⟨hp, hps⟩ := List.forall_mem_cons.mp hfit
    rcases p.cases_isToken with ⟨kind, hkind⟩ | hpassed
    · obtain ⟨c, a, ha⟩ := List.exists_cons_of_ne_nil hp.text_ne_nil
      rw [ofPieces_of_token _ _ _ _ hkind]
      simp [Piece.tokenAt, ha]
    · rw [ofPieces_of_not_token _ _ _ _ hpassed, ih hps, List.flatMap_cons, List.append_assoc]

theorem isContinued_head? (hfit : ∀ p ∈ ps, p.Fits) :
    isContinued (ofPieces q [] [] ps).head? = ((ps.flatMap Piece.text).head? == some '@') := by
  have hhead : (ofPieces q [] [] ps).head?.map _ = _ := map_head?_ofPieces hfit
  obtain ⟨u, hu, hfirst⟩ := Option.map_eq_some_iff.mp hhead
  rw [hu]
  change ((u.gap.toList ++ u.text.toList).head? == some '@') = _
  rw [hfirst, List.nil_append]

theorem endsWithDot_of_getLast? {d : Char} (hlast : text.getLast? = some d) (hd : isBlank d = false)
    (w : List Char) : endsWithDot (text.reverse ++ w) = (d == '.') := by
  obtain ⟨u, rfl⟩ := List.getLast?_eq_some_iff.mp hlast
  rw [List.reverse_append, List.reverse_singleton, List.append_assoc]
  exact endsWithDot_cons hd

theorem endsWithDot_of_blanks (h : ∀ c ∈ text, isBlank c = true) (w : List Char) :
    endsWithDot (text.reverse ++ w) = endsWithDot w := by
  unfold endsWithDot
  rw [List.dropWhile_append_of_pos fun c hc => h c (List.mem_reverse.mp hc)]

/-- No number ends with a point. -/
theorem exists_getLast?_numberRest (h : isWordChar c = true ∨ startsWithDigit r = true) :
    ∃ d, (numberRest c r).read.getLast? = some d ∧ isWordChar d = true := by
  induction r generalizing c with
  | nil => exact ⟨c, rfl, h.resolve_right nofun⟩
  | cons d r ih =>
    rw [numberRest]
    split
    · rename_i hpart
      have hd : isWordChar d = true ∨ startsWithDigit r = true := by
        refine (isWordChar_of_isNumberPart hpart).imp_right ?_
        rintro rfl
        exact hpart
      obtain ⟨e, hlast, he⟩ := ih hd
      refine ⟨e, ?_, he⟩
      change (c :: (numberRest d r).read).getLast? = some e
      rw [List.getLast?_cons, hlast]
      rfl
    · rename_i hpart
      refine ⟨c, rfl, h.resolve_right fun hdigit => hpart ?_⟩
      have hd : d.isDigit = true := hdigit
      simp [isNumberPart, Char.isAlphanum, hd]

theorem getLast?_of_mem_puncts : ∀ p ∈ puncts,
    p.toList.getLast?.map (fun d => (isBlank d, d == '.')) =
      some (false, p == "." || p == "?.") := by
  decide

/-- No token ends with a blank, and the dots are the only ones that end with a dot. -/
theorem exists_getLast?_token {kind : Token.Kind} {t : Cut (c :: r)}
    (h : Piece.TokenAt c r kind t) :
    ∃ d, t.read.getLast? = some d ∧ isBlank d = false ∧ (d == '.') =
      (kind == .punct && (String.ofList t.read == "." || String.ofList t.read == "?.")) := by
  have hword : ∀ d, isWordChar d = true → isBlank d = false ∧ (d == '.') = false := by
    intro d hd
    refine ⟨isBlank_of_isWordPart (isWordPart_of_isWordChar hd), beq_false_of_ne ?_⟩
    rintro rfl
    exact absurd hd (by decide)
  cases h with
  | string ho hclose =>
    exact ⟨'"', getLast?_of_readsString ⟨_, ho, t, hclose, rfl, rfl⟩, by decide, rfl⟩
  | @char t hquote hrest =>
    have hbody := (reads_charRest_iff.mp ⟨t, hrest, rfl, rfl⟩).2
    exact ⟨'\'', hbody.getLast?_cons c, by decide, rfl⟩
  | number ho hquote hnumber =>
    simp only [Piece.startsNumber, Bool.or_eq_true, Bool.and_eq_true] at hnumber
    obtain ⟨d, hlast, hd⟩ :=
      exists_getLast?_numberRest (hnumber.imp isWordChar_of_isDigit And.right)
    exact ⟨d, hlast, hword d hd⟩
  | word ho hquote hnumber hname =>
    obtain ⟨d, hlast, hd⟩ := (IsName.of_run hname).exists_isWordChar
    exact ⟨d, hlast, hword d hd⟩
  | @punct p ho hquote hnumber hname hp =>
    have hmem := List.mem_of_find?_eq_some hp
    obtain ⟨d, hlast, hd⟩ := Option.map_eq_some_iff.mp (getLast?_of_mem_puncts p hmem)
    obtain ⟨hblank, hdot⟩ := Prod.mk.inj hd
    rw [read_of_punct? hp, String.ofList_toList]
    exact ⟨d, hlast, hblank, hdot⟩

theorem endsWithDot_token {t : Cut (c :: r)} {u : Token} (htoken : Piece.TokenAt c r u.kind t)
    (hu : u.text = String.ofList t.read) (w : List Char) :
    endsWithDot (t.read.reverse ++ w) = isDot u := by
  obtain ⟨d, hlast, hblank, hdot⟩ := exists_getLast?_token htoken
  rw [endsWithDot_of_getLast? hlast hblank, hdot, isDot, Token.isPunct, Token.isPunct, hu,
    Bool.and_or_distrib_left]

theorem behindDot_append (prev : Option Token) (leading : List Comment) (comment : Comment) :
    behindDot prev (leading ++ [comment]) = (comment.text.toList.getLast? == some '.') := by
  unfold behindDot
  rw [List.getLast?_concat]

/-- A comment ends with a dot if its text does. -/
theorem endsWithDot_comment {lineStart : Bool} {kind : Piece.Kind} {b : List Char}
    (h : Piece.CommentAt lineStart c kind text b) (w : List Char) (prev : Option Token)
    (leading : List Comment) (q : Place) :
    endsWithDot (text.reverse ++ w) =
      behindDot prev (leading ++ Piece.commentAt q ⟨kind, text⟩) := by
  have hc := h.head_eq
  cases h with
  | @line a b hopen hline hend =>
    have hsolid : isBlank c = false := by
      rcases hc with rfl | rfl <;> rfl
    have hne : ((c :: a).reverse.dropWhile isBlank).isEmpty = false := by
      rw [List.isEmpty_eq_false_iff, ne_eq, List.dropWhile_eq_nil_iff]
      intro hall
      have hblank := hall c (List.mem_reverse.mpr List.mem_cons_self)
      rw [hsolid] at hblank
      cases hblank
    rw [Piece.commentAt, behindDot_append, endsWithDot, List.dropWhile_append, hne]
    simp only [String.toList_ofList, trimEnd, List.getLast?_reverse]
    obtain ⟨d, s, hs⟩ := List.exists_cons_of_ne_nil (List.isEmpty_eq_false_iff.mp hne)
    rw [hs]
    rfl
  | @block a b hopen hbody =>
    have hlast := hbody.getLast?_comment c
    rw [Piece.commentAt, behindDot_append, endsWithDot_of_getLast? hlast rfl]
    simp only [String.toList_ofList, hlast]
    rfl

/-- The scanner replaces a piece if it replaces its token. -/
theorem isReplaced_tokenAt (old : String) (kind : Token.Kind) (text : List Char) (q q' : Place)
    {inWord : Bool} {w : List Char} (hfit : ∀ p ∈ ps, p.Fits) {prev : Option Token}
    (hword : inWord = (gap.isEmpty && prev.any fun s => s.kind == .ident || s.kind == .number))
    (hdot : endsWithDot w = behindDot prev leading) :
    isReplaced old prev (Piece.tokenAt q gap leading kind ⟨.token kind, text⟩)
        (ofPieces q' [] [] ps).head? = true ↔
      (⟨.token kind, text⟩ : Piece) = ⟨.token .ident, old.toList⟩ ∧ inWord = false ∧
        endsWithDot w = false ∧ (ps.flatMap Piece.text).head? ≠ some '@' := by
  have hempty : (String.ofList gap == "") = gap.isEmpty := by
    cases gap with
    | nil => rfl
    | cons c gap =>
      refine beq_false_of_ne fun heq => ?_
      have hchars := congrArg String.toList heq
      rw [String.toList_ofList] at hchars
      cases hchars
  -- Each condition of the scanner is one on tokens: the word before, the word itself, the dot.
  have hcontinues :
      continuesWord prev (Piece.tokenAt q gap leading kind ⟨.token kind, text⟩) = inWord := by
    rw [hword, ← hempty]
    rfl
  have hident : Token.isIdent (Piece.tokenAt q gap leading kind ⟨.token kind, text⟩) old = true ↔
      (⟨.token kind, text⟩ : Piece) = ⟨.token .ident, old.toList⟩ := by
    unfold Token.isIdent
    rw [Bool.and_eq_true, beq_iff_eq, beq_iff_eq, Piece.mk.injEq, Piece.Kind.token.injEq]
    refine and_congr_right fun _ => ⟨fun heq => ?_, fun heq => ?_⟩
    · rw [← heq]
      exact String.toList_ofList.symm
    · exact (congrArg String.ofList heq).trans String.ofList_toList
  have hleading :
      (Piece.tokenAt q gap leading kind ⟨.token kind, text⟩).leading = leading := rfl
  unfold isReplaced
  rw [isContinued_head? hfit, hcontinues, hleading, ← hdot]
  simp only [Bool.and_eq_true, Bool.not_eq_true', hident, beq_eq_false_iff_ne]
  tauto

/-- **The tokens of a text after renaming.** The state is what was passed since the last token. -/
theorem Renames.map_form_ofPieces {new : String} {inWord : Bool} {w : List Char} {ps' : List Piece}
    (h : Renames old.toList new.toList inWord w ps ps') {lineStart : Bool} {cs : List Char}
    (hps : pieces lineStart cs = .ok ps) (hpass : ∀ p ∈ ps, Passable p) (q q' : Place)
    {gap' : List Char} {leading' : List Comment} {prev : Option Token}
    (hword : inWord = (gap.isEmpty && prev.any fun s => s.kind == .ident || s.kind == .number))
    (hdot : endsWithDot w = behindDot prev leading) :
    (ofPieces q' gap' leading' ps').map form =
      substitute new (isReplaced old) prev (ofPieces q gap leading ps) := by
  induction h generalizing lineStart cs q q' gap gap' leading leading' prev with
  | nil => rfl
  | @cons inWord w p p' ps ps' hp h ih =>
    obtain ⟨hpass, hpasses⟩ := List.forall_mem_cons.mp hpass
    obtain ⟨c, r, t, rfl, hnext, hread, hrest⟩ := exists_next_of_pieces hps
    have hfits := fits_of_mem_pieces hrest
    have hkind' := hp.kind_eq
    obtain ⟨kind, text⟩ := p
    obtain rfl : t.read = text := hread
    -- What is no token is passed on both sides.
    have hpassed : Piece.isToken ⟨kind, t.read⟩ = false →
        endsWithDot (t.read.reverse ++ w) =
          behindDot prev (leading ++ Piece.commentAt q ⟨kind, t.read⟩) →
        (ofPieces q' gap' leading' (p' :: ps')).map form =
          substitute new (isReplaced old) prev (ofPieces q gap leading (⟨kind, t.read⟩ :: ps)) := by
      intro htoken hafter
      have htoken' : p'.isToken = false := by
        unfold Piece.isToken
        rw [hkind']
        exact htoken
      rw [ofPieces_of_not_token _ _ _ _ htoken, ofPieces_of_not_token _ _ _ _ htoken']
      refine ih hrest hpasses _ _ ?_ hafter
      have hne : (gap ++ t.read).isEmpty = false := by
        rw [List.isEmpty_eq_false_iff]
        exact List.append_ne_nil_of_right_ne_nil gap t.read_ne_nil
      rw [show (gap ++ Piece.text ⟨kind, t.read⟩).isEmpty = false from hne, Bool.false_and]
      cases kind with
      | token kind => cases htoken
      | blank | line | block => rfl
    cases Piece.nextAt_of_next hnext with
    | blank hblank =>
      refine hpassed rfl ?_
      rw [endsWithDot_of_blanks (isBlank_of_mem_run hblank), hdot, Piece.commentAt, List.append_nil]
    | comment hblank hcomment =>
      have hat := Piece.commentAt_of_comment? hcomment
      refine hpassed ?_ (endsWithDot_comment hat w prev leading q)
      generalize t.read = text, t.rest = b at hat
      cases hat <;> rfl
    | @token kind t hblank hcomment htoken =>
      have hreplaced := isReplaced_tokenAt old kind t.read q (q.advance t.read) hfits hword hdot
      rw [ofPieces_of_token _ _ _ _ hkind', ofPieces_of_token _ _ _ _ rfl, List.map_cons, substitute]
      congr 1
      · cases hp with
        | comment hkind => rcases hkind with hkind | hkind <;> cases hkind
        | token =>
          unfold renamed
          split
          · rename_i hold
            rw [if_pos (hreplaced.mpr hold)]
            obtain ⟨hkind, -⟩ := Piece.mk.inj hold.1
            cases hkind
            exact congrArg (Prod.mk Kind.ident) String.ofList_toList
          · rename_i hold
            rw [if_neg (mt hreplaced.mp hold)]
            rfl
      · refine ih hrest hpasses _ _ ?_ ?_
        · cases kind <;> rfl
        · exact endsWithDot_token htoken rfl w

/-- Two tests that only pass one identifier make the same of tokens if they agree on each of them,
or if the identifier is the new one anyway. -/
theorem substitute_eq_iff (old new : String)
    {test test' : Option Token → Token → Option Token → Bool}
    (htest : ∀ prev t next, test prev t next = true → t.isIdent old = true)
    (htest' : ∀ prev t next, test' prev t next = true → t.isIdent old = true)
    (prev : Option Token) (ts : List Token) :
    substitute new test prev ts = substitute new test' prev ts ↔
      old = new ∨ ∀ front t rest, ts = front ++ t :: rest →
        test (front.getLast?.or prev) t rest.head? = test' (front.getLast?.or prev) t rest.head? := by
  have hform : ∀ t : Token, t.isIdent old = true → form t = (.ident, old) := by
    intro t ht
    simp only [Token.isIdent, Bool.and_eq_true, beq_iff_eq] at ht
    rw [form, ht.1, ht.2]
  -- If the identifiers are the same, replacing changes no form, whatever the test.
  by_cases hsame : old = new
  · refine iff_of_true ?_ (.inl hsame)
    have hstep : ∀ {t : Token} {b : Bool}, (b = true → t.isIdent old = true) →
        (if b then (.ident, new) else form t) = form t := by
      intro t b hb
      split
      · rw [hform t (hb ‹_›), hsame]
      · rfl
    induction ts generalizing prev with
    | nil => rfl
    | cons t ts ih =>
      rw [substitute, substitute, hstep (htest prev t _), hstep (htest' prev t _), ih]
  · -- Otherwise the results differ at the first token on which the tests do.
    have hhead : ∀ (t : Token) (b b' : Bool), (b = true → t.isIdent old = true) →
        (b' = true → t.isIdent old = true) →
        ((if b then (Kind.ident, new) else form t) = (if b' then (Kind.ident, new) else form t) ↔
          b = b') := by
      intro t b b' hb hb'
      cases b with
      | false =>
        cases b' with
        | false => exact iff_of_true rfl rfl
        | true =>
          refine iff_of_false (fun heq => hsame ?_) nofun
          rw [hform t (hb' rfl)] at heq
          exact (Prod.mk.inj heq).2
      | true =>
        cases b' with
        | true => exact iff_of_true rfl rfl
        | false =>
          refine iff_of_false (fun heq => hsame ?_) (fun h => Bool.noConfusion h)
          rw [hform t (hb rfl)] at heq
          exact (Prod.mk.inj heq).2.symm
    -- The token before a place, seen from the token `v` on or from before it.
    have hlast : ∀ (v : Token) (front : List Token) (prev : Option Token),
        (v :: front).getLast?.or prev = front.getLast?.or (some v) := by
      intro v front prev
      rw [List.getLast?_cons]
      cases front.getLast? <;> rfl
    rw [or_iff_right hsame]
    induction ts generalizing prev with
    | nil => simp [substitute]
    | cons t ts ih =>
      rw [substitute, substitute, List.cons.injEq, hhead t _ _ (htest prev t _) (htest' prev t _)]
      -- Agreeing on all splits is agreeing on the first token and on all splits behind it.
      refine (and_congr_right fun _ => ih (some t)).trans ⟨?_, fun h => ⟨h [] t ts rfl, ?_⟩⟩
      · rintro ⟨hfirst, hrest⟩ front u rest heq
        cases front with
        | nil =>
          obtain ⟨rfl, rfl⟩ := List.cons.inj heq
          exact hfirst
        | cons v front =>
          obtain ⟨rfl, rfl⟩ := List.cons.inj heq
          rw [hlast]
          exact hrest front u rest rfl
      · intro front u rest heq
        have hu := h (t :: front) u rest (by rw [heq]; rfl)
        rwa [hlast] at hu

/-- The text is one identifier. -/
def IsIdentifier (name : String) : Prop :=
  pieces true name.toList = .ok [⟨.token .ident, name.toList⟩]

theorem isIdentifier_iff {name : String} : IsIdentifier name ↔ IsName name.toList := by
  constructor
  · intro h
    obtain ⟨c, r, t, -, hnext, hread, -⟩ := exists_next_of_pieces h
    rw [← show t.read = name.toList from hread]
    cases (Piece.tokenAt_of_next hnext).2 with
    | word ho hquote hnumber hname => exact .of_run hname
  · intro h
    obtain ⟨c, a, ha⟩ := List.exists_cons_of_ne_nil h.ne_nil
    have hcut : IsCut true ⟨.token .ident, name.toList⟩ [] := by
      rw [ha] at h ⊢
      exact isCut_name h nofun
    have hnil : pieces (Piece.lineStartAfter true ⟨.token .ident, name.toList⟩) [] = .ok [] := by
      unfold pieces
      rfl
    have hpieces := hcut.pieces_eq hnil
    rwa [List.append_nil] at hpieces

/-- The scanner passes the token and the comments before it as the tokens have them: it is no
interpolated and no raw string, and there is no quote in the comments. -/
structure InStep (t : Token) : Prop where
  string : t.kind = .str → '$' ∉ t.text.toList.takeWhile isMark ∧
    ¬['"', '"', '"'] <+: t.text.toList.dropWhile isMark
  comments : ∀ comment ∈ t.leading, '"' ∉ comment.text.toList ∧ '\'' ∉ comment.text.toList

instance (t : Token) : Decidable (InStep t) :=
  decidable_of_iff (_ ∧ _) ⟨fun h => ⟨h.1, h.2⟩, fun h => ⟨h.string, h.comments⟩⟩

theorem mem_trimEnd (hc : isBlank c = false) (h : c ∈ text) :
    c ∈ trimEnd text := by
  have hsplit : text.reverse.takeWhile isBlank ++ text.reverse.dropWhile isBlank = text.reverse :=
    List.takeWhile_append_dropWhile
  have hmem : c ∈ text.reverse := List.mem_reverse.mpr h
  rw [← hsplit] at hmem
  rcases List.mem_append.mp hmem with hblank | hrest
  · rw [List.mem_takeWhile_imp hblank] at hc
    cases hc
  · exact List.mem_reverse.mpr hrest

/-- What holds of the tokens holds of the pieces that they are made of. -/
theorem passable_of_inStep (h : ∀ t ∈ ofPieces q gap leading ps, InStep t) :
    (∀ comment ∈ leading, '"' ∉ comment.text.toList ∧ '\'' ∉ comment.text.toList) ∧
      ∀ p ∈ ps, Passable p := by
  induction ps generalizing q gap leading with
  | nil => exact ⟨(h _ List.mem_cons_self).comments, List.forall_mem_nil _⟩
  | cons p ps ih =>
    rcases p.cases_isToken with ⟨kind, hkind⟩ | hpassed
    · rw [ofPieces_of_token _ _ _ _ hkind] at h
      obtain ⟨hp, hps⟩ := List.forall_mem_cons.mp h
      refine ⟨hp.comments, List.forall_mem_cons.mpr ⟨⟨fun hstring => ?_, fun hcomment => ?_⟩,
        (ih hps).2⟩⟩
      · rw [hkind] at hstring
        cases hstring
        have hplain := hp.string rfl
        rwa [Piece.tokenAt, String.toList_ofList] at hplain
      · rw [hkind] at hcomment
        rcases hcomment with hcomment | hcomment <;> cases hcomment
    · rw [ofPieces_of_not_token _ _ _ _ hpassed] at h
      obtain ⟨hleading, hps⟩ := ih h
      obtain ⟨hleading, hcomments⟩ := List.forall_mem_append.mp hleading
      refine ⟨hleading, List.forall_mem_cons.mpr ⟨⟨fun hstring => ?_, fun hcomment c hc => ?_⟩, hps⟩⟩
      · rw [Piece.isToken, hstring] at hpassed
        cases hpassed
      · have hquotes : '"' ∉ p.text ∧ '\'' ∉ p.text := by
          rcases hcomment with hline | hblock
          · rw [Piece.commentAt, hline, List.forall_mem_singleton, String.toList_ofList] at hcomments
            exact hcomments.imp (mt (mem_trimEnd rfl)) (mt (mem_trimEnd rfl))
          · rw [Piece.commentAt, hblock, List.forall_mem_singleton, String.toList_ofList]
              at hcomments
            exact hcomments
        exact ⟨fun heq => hquotes.1 (heq ▸ hc), fun heq => hquotes.2 (heq ▸ hc)⟩

/-- The token is the identifier, and it names no member of something else. -/
def isReference (old : String) (prev : Option Token) (t : Token) (_ : Option Token) : Bool :=
  t.isIdent old && !prev.any isDot

theorem isIdent_of_isReplaced (prev : Option Token) (t : Token) (next : Option Token)
    (h : isReplaced old prev t next = true) : t.isIdent old = true := by
  simp only [isReplaced, Bool.and_eq_true] at h
  exact h.1.1.1

theorem isIdent_of_isReference (prev : Option Token) (t : Token) (next : Option Token)
    (h : isReference old prev t next = true) : t.isIdent old = true := by
  simp only [isReference, Bool.and_eq_true] at h
  exact h.1

/-- **Renaming and tokens.** Let a text have tokens, among them no interpolated and no raw string,
and no comment with a quote, and let one identifier be renamed to another.

* The result has tokens too: those of the text, with the new identifier in the place of each old one
  that touches no other word and that the scanner finds no dot before.
* The old identifiers that follow a dot are kept and all others replaced, exactly if each old one
  follows a dot whenever it touches another word or the scanner finds a dot before it, and else not. -/
theorem tokens_renamed_iff {text old new : String} {base : Nat} {ts : List Token}
    (hts : tokenize text base = .ok ts) (hstep : ∀ t ∈ ts, InStep t) (hold : IsIdentifier old)
    (hnew : IsIdentifier new) :
    ∃ ts', tokenize (apply (single old new) text) base = .ok ts' ∧
      ts'.map form = substitute new (isReplaced old) none ts ∧
      (ts'.map form = substitute new (isReference old) none ts ↔
        old = new ∨ ∀ front t rest, ts = front ++ t :: rest → t.isIdent old = true →
          (front.getLast?.any isDot = true ↔ behindDot front.getLast? t.leading = true ∨
            continuesWord front.getLast? t = true ∨ isContinued rest.head? = true)) := by
  obtain ⟨ps, hps, rfl⟩ := exists_pieces_of_tokenize hts
  have hpass := (passable_of_inStep hstep).2
  -- The scanner goes piece by piece, and replaces a piece or keeps it.
  obtain ⟨ps', hrenames, hscan⟩ : ∃ ps', Renames old.toList new.toList false [] ps ps' ∧
      scan (single old new) false [] text.toList = (ps'.flatMap Piece.text).reverse ++ [] :=
    exists_renames (isIdentifier_iff.mp hold) (isIdentifier_iff.mp hnew) false hps hpass
      (by rintro _ ⟨⟩) rfl
  -- What it writes is cut into the renamed pieces again, and so these are the pieces of the result.
  have htext : (apply (single old new) text).toList = ps'.flatMap Piece.text := by
    have hcode : code (single old new) [] text.toList = (ps'.flatMap Piece.text).reverse := by
      rw [← List.append_nil (ps'.flatMap Piece.text).reverse]
      exact hscan
    rw [apply, String.toList_ofList, hcode, List.reverse_reverse]
  have hforms : (ofPieces (Place.start base) [] [] ps').map form =
      substitute new (isReplaced old) none (ofPieces (Place.start base) [] [] ps) :=
    hrenames.map_form_ofPieces hps hpass _ _ rfl rfl
  refine ⟨ofPieces (Place.start base) [] [] ps', ?_, hforms, ?_⟩
  · have hps' := hrenames.pieces_eq (isIdentifier_iff.mp hold) (isIdentifier_iff.mp hnew) hps hpass
    rw [tokenize, htext, hps']
  · rw [hforms, substitute_eq_iff old new isIdent_of_isReplaced isIdent_of_isReference]
    simp only [Option.or_none]
    refine or_congr_right (forall_congr' fun front => forall_congr' fun t => forall_congr' fun rest =>
      imp_congr_right fun _ => ?_)
    -- Only the old identifier is tested, and on it the two tests are Boolean functions of
    -- four conditions.
    cases hident : t.isIdent old with
    | false => simp [isReplaced, isReference, hident]
    | true =>
      simp only [isReplaced, isReference, hident, true_imp_iff, Bool.true_and]
      generalize front.getLast?.any isDot = followsDot
      cases continuesWord front.getLast? t <;> cases isContinued rest.head? <;>
        cases behindDot front.getLast? t.leading <;> cases followsDot <;> decide

/-- Two names behind comments, one with a dot before the comment and one with a dot in it, and one
that touches another name. -/
def gluedCall : String :=
  "f(Name, o.Name, s. /* own */ Name, x is Name@y, // one.\n  Name, \"Name\")"

theorem tokens_renamed_iff_gluedCall :
    ∃ ts ts', tokenize gluedCall 0 = .ok ts ∧ (∀ t ∈ ts, InStep t) ∧
      IsIdentifier "Name" ∧ IsIdentifier "name" ∧
      tokenize (apply (single "Name" "name") gluedCall) 0 = .ok ts' ∧
      ts'.map Token.text = ["f", "(", "name", ",", "o", ".", "Name", ",", "s", ".", "name", ",", "x",
        "is", "Name", "@y", ",", "Name", ",", "\"Name\"", ")", ""] ∧
      ts'.map form ≠ substitute "name" (isReference "Name") none ts := by
  have hrun : (tokenize gluedCall 0).toOption.map (fun ts => (ts.all fun t => decide (InStep t),
      (substitute "name" (isReplaced "Name") none ts).map Prod.snd,
      substitute "name" (isReplaced "Name") none ts ==
        substitute "name" (isReference "Name") none ts)) =
      some (true, ["f", "(", "name", ",", "o", ".", "Name", ",", "s", ".", "name", ",", "x", "is",
        "Name", "@y", ",", "Name", ",", "\"Name\"", ")", ""], false) := by
    decide +kernel
  have hold : IsIdentifier "Name" :=
    isIdentifier_iff.mpr ⟨'N', ['a', 'm', 'e'], rfl, by decide, List.all_eq_true.mp (by decide)⟩
  have hnew : IsIdentifier "name" :=
    isIdentifier_iff.mpr ⟨'n', ['a', 'm', 'e'], rfl, by decide, List.all_eq_true.mp (by decide)⟩
  obtain ⟨ts, h, hrun⟩ := exists_ok_of_map hrun
  obtain ⟨hstep, hrest⟩ := Prod.mk.inj hrun
  obtain ⟨htexts, hdiffer⟩ := Prod.mk.inj hrest
  have hstep : ∀ t ∈ ts, InStep t := by simpa using hstep
  obtain ⟨ts', hts', hforms, -⟩ := tokens_renamed_iff h hstep hold hnew
  refine ⟨ts, ts', h, hstep, hold, hnew, hts', ?_, ?_⟩
  · rw [← htexts, ← hforms, List.map_map]
    rfl
  · rw [hforms]
    exact ne_of_beq_false hdiffer

-- A quote in a comment and a raw string put the scanner out of step.
example : apply (single "Name" "name") "1 /* don't */, Name" = "1 /* don't */, Name" := by
  decide +kernel

example : apply (single "Name" "name") "\"\"\"a \"Name\" b\"\"\"" = "\"\"\"a \"name\" b\"\"\"" := by
  decide +kernel

end Renaming

end ClassSugar
