import ClassSugar.Proofs.PieceForms
import ClassSugar.Proofs.SourceText
import ClassSugar.Token.Stream
import Mathlib.Data.List.Chain
import Mathlib.Data.List.TakeWhile

/-!
# Tokens lose nothing of a source

What `Token.tokenize` returns accounts for every character of the source (`tokenize_lossless`): a
character is in a token, in a comment, or it is a blank between them. Tokens and comments follow
each other in the order of the source, and each is where its span says.

The argument has two layers. `pieces` cuts the source, and each piece looks as its kind demands
(`Piece.Fits`). `ofPieces` then gives places to the pieces that are no blanks; these are laid out
one after the other, with blanks between them (`chain_solidSpans`).
-/

namespace ClassSugar

open ClassSugar.Text

/-! ### What a piece looks like -/

namespace Token

/-- The text of a piece is not empty and as its kind demands. -/
structure Piece.Fits (piece : Piece) : Prop where
  text_ne_nil : piece.text ≠ []
  blank : piece.kind = .blank → ∀ c ∈ piece.text, isBlank c = true
  line : piece.kind = .line →
    (['/', '/'] <+: piece.text ∨ ['#'] <+: piece.text) ∧ '\n' ∉ piece.text
  block : piece.kind = .block → ['/', '*'] <+: piece.text
  token : ∀ kind, piece.kind = .token kind → kind ≠ .eof

/-- A piece that is a token has a text and is not the end of the source. -/
theorem Piece.Fits.ofToken {piece : Piece} {kind : Token.Kind} (hkind : piece.kind = .token kind)
    (hne : piece.text ≠ []) (heof : kind ≠ .eof) : piece.Fits where
  text_ne_nil := hne
  blank h := by rw [hkind] at h; cases h
  line h := by rw [hkind] at h; cases h
  block h := by rw [hkind] at h; cases h
  token kind' h := by
    rw [hkind] at h
    cases h
    exact heof

/-- The next piece fits. -/
theorem Piece.fits_next {lineStart : Bool} {c : Char} {r : List Char} {kind : Piece.Kind}
    {t : Cut (c :: r)} (h : Piece.next lineStart c r = .ok (kind, t)) :
    Piece.Fits ⟨kind, t.read⟩ := by
  have hne := t.read_ne_nil
  cases Piece.nextAt_of_next h with
  | blank hblank =>
    refine ⟨hne, fun _ => ?_, nofun, nofun, nofun⟩
    exact List.forall_mem_cons.mpr ⟨hblank, fun d => List.mem_takeWhile_imp⟩
  | comment _ hcomment =>
    have hat := Piece.commentAt_of_comment? hcomment
    generalize t.read = a at hat hne
    cases hat with
    | line hopen hline =>
      refine ⟨hne, nofun, fun _ => ⟨hopen.imp_right fun hhash => ?_, hline⟩, nofun, nofun⟩
      exact hhash.1 ▸ List.prefix_append ['#'] _
    | block hopen =>
      exact ⟨hne, nofun, nofun, fun _ => hopen ▸ List.prefix_append ['/', '*'] _, nofun⟩
  | token _ _ htoken => exact .ofToken rfl hne (by cases htoken <;> nofun)

/-- **All pieces of a text fit.** -/
theorem fits_of_mem_pieces {lineStart : Bool} {cs : List Char} {ps : List Piece}
    (h : pieces lineStart cs = .ok ps) : ∀ piece ∈ ps, piece.Fits := by
  induction ps generalizing lineStart cs with
  | nil => exact List.forall_mem_nil _
  | cons p ps ih =>
    obtain ⟨c, r, t, -, hnext, hread, hrest⟩ := exists_next_of_pieces h
    have hfits := Piece.fits_next hnext
    rw [hread] at hfits
    exact List.forall_mem_cons.mpr ⟨hfits, ih hrest⟩

/-! ### Where the pieces are -/

/-- The span of a piece that starts at a place. -/
def Piece.spanAt (p : Place) (piece : Piece) : Span :=
  ⟨p.offset, (p.advance piece.text).offset⟩

/-- The token that a piece at a place is, with what was passed before it. -/
def Piece.tokenAt (p : Place) (gap : List Char) (leading : List Comment) (kind : Token.Kind)
    (piece : Piece) : Token :=
  { kind := kind, text := String.ofList piece.text, span := piece.spanAt p, line := p.line
    column := p.column, leading := leading, gap := String.ofList gap }

/-- The comment that a piece at a place is, if it is one. -/
def Piece.commentAt (p : Place) (piece : Piece) : List Comment :=
  match piece.kind with
  | .line => [⟨String.ofList (trimEnd piece.text), piece.spanAt p, p.column⟩]
  | .block => [⟨String.ofList piece.text, piece.spanAt p, p.column⟩]
  | _ => []

/-- A piece is a token or it is passed. -/
theorem Piece.cases_isToken (piece : Piece) :
    (∃ kind, piece.kind = .token kind) ∨ piece.isToken = false := by
  unfold Piece.isToken
  cases piece.kind with
  | token kind => exact .inl ⟨kind, rfl⟩
  | blank | line | block => exact .inr rfl

section Step

variable (p : Place) (gap : List Char) (leading : List Comment) {piece : Piece} (rest : List Piece)

/-- After a token the walk starts anew. -/
theorem ofPieces_of_token {kind : Token.Kind} (h : piece.kind = .token kind) :
    ofPieces p gap leading (piece :: rest) =
      piece.tokenAt p gap leading kind :: ofPieces (p.advance piece.text) [] [] rest := by
  rw [ofPieces]
  simp only [h]
  rfl

/-- What is no token is passed; if it is a comment it will ride on the next token. -/
theorem ofPieces_of_not_token (h : piece.isToken = false) :
    ofPieces p gap leading (piece :: rest) =
      ofPieces (p.advance piece.text) (gap ++ piece.text) (leading ++ piece.commentAt p) rest := by
  rw [ofPieces, Piece.commentAt]
  unfold Piece.isToken at h
  cases hkind : piece.kind with
  | token kind => rw [hkind] at h; cases h
  | blank => exact congrArg (ofPieces _ _ · _) (List.append_nil _).symm
  | line | block => rfl

end Step

/-- The spans of the pieces from a place on that are no blanks, and the end of the source. -/
def solidSpans (p : Place) : List Piece → List Span
  | [] => [⟨p.offset, p.offset⟩]
  | piece :: rest =>
    match piece.kind with
    | .blank => solidSpans (p.advance piece.text) rest
    | _ => piece.spanAt p :: solidSpans (p.advance piece.text) rest

/-- The spans of the comments and the tokens in the order of the source: the comments before a token
come before it. -/
def spans (ts : List Token) : List Span :=
  ts.flatMap fun t => t.leading.map Comment.span ++ [t.span]

theorem spans_ofPieces (p : Place) (gap : List Char) (leading : List Comment) (ps : List Piece) :
    spans (ofPieces p gap leading ps) = leading.map Comment.span ++ solidSpans p ps := by
  induction ps generalizing p gap leading with
  | nil =>
    simp only [ofPieces, spans, solidSpans, List.flatMap_cons, List.flatMap_nil, List.append_nil]
  | cons piece rest ih =>
    rcases piece.cases_isToken with ⟨kind, hkind⟩ | hpassed
    · rw [ofPieces_of_token _ _ _ _ hkind, spans, List.flatMap_cons]
      change leading.map Comment.span ++ [piece.spanAt p] ++ spans _ = _
      rw [ih, List.append_assoc, solidSpans, hkind]
      rfl
    · rw [ofPieces_of_not_token _ _ _ _ hpassed, ih, List.map_append, List.append_assoc, solidSpans,
        Piece.commentAt]
      unfold Piece.isToken at hpassed
      cases hkind : piece.kind with
      | token kind => rw [hkind] at hpassed; cases hpassed
      | blank | line | block => rfl

section Layout

variable {source : String} {base : Nat}

/-- One span follows another with nothing but blanks between them. -/
def FollowsBlank (source : String) (base : Nat) (a b : Span) : Prop :=
  ∃ blanks, (∀ c ∈ blanks, isBlank c = true) ∧ Span.Covers ⟨a.hi, b.lo⟩ source base blanks

/-- A piece covers its text. -/
theorem Piece.covers_spanAt {here after : List Char} {piece : Piece}
    (hsource : source.toList = here ++ (piece.text ++ after)) :
    (piece.spanAt ((Place.start base).advance here)).Covers source base piece.text := by
  rw [Piece.spanAt, ← Place.advance_append]
  exact .advance (hsource.trans (List.append_assoc _ _ _).symm)

/-- **Pieces lie one after the other.** The state of the walk is what was passed up to the end of
the last span, and the blanks since then. -/
theorem chain_solidSpans {ps : List Piece} (hfit : ∀ piece ∈ ps, piece.Fits) {a : Span}
    {before blanks here : List Char} (hhere : before ++ blanks = here)
    (hsource : source.toList = here ++ ps.flatMap Piece.text)
    (hend : a.hi = ((Place.start base).advance before).offset)
    (hblanks : ∀ c ∈ blanks, isBlank c = true) :
    (a :: solidSpans ((Place.start base).advance here) ps).IsChain (FollowsBlank source base) ∧
      ∀ s ∈ solidSpans ((Place.start base).advance here) ps,
        ∃ text, s.Covers source base text := by
  induction ps generalizing a before blanks here with
  | nil =>
    have hlast : Span.Covers ⟨_, _⟩ source base [] :=
      .between (List.append_nil here) hsource (s := ⟨0, _⟩) rfl
    exact ⟨List.isChain_cons_cons.mpr ⟨⟨blanks, hblanks, .between hhere hsource hend⟩,
      List.isChain_singleton _⟩, List.forall_mem_singleton.mpr ⟨[], hlast⟩⟩
  | cons piece rest ih =>
    obtain ⟨hpiece, hrest⟩ := List.forall_mem_cons.mp hfit
    have hnext : source.toList = here ++ piece.text ++ rest.flatMap Piece.text :=
      hsource.trans (List.append_assoc _ _ _).symm
    unfold solidSpans
    rw [← Place.advance_append]
    split
    · -- More blanks.
      rename_i hkind
      refine ih hrest ?_ hnext hend (List.forall_mem_append.mpr ⟨hblanks, hpiece.blank hkind⟩)
      rw [← List.append_assoc, hhere]
    · -- A piece with a span, after which no blanks have been passed yet.
      have hhi : (piece.spanAt ((Place.start base).advance here)).hi =
          ((Place.start base).advance (here ++ piece.text)).offset := by
        rw [Place.advance_append]
        rfl
      obtain ⟨hchain, hcovered⟩ :=
        ih hrest (List.append_nil _) hnext hhi (List.forall_mem_nil _)
      exact ⟨List.isChain_cons_cons.mpr ⟨⟨blanks, hblanks, .between hhere hsource hend⟩, hchain⟩,
        List.forall_mem_cons.mpr ⟨⟨piece.text, Piece.covers_spanAt hsource⟩, hcovered⟩⟩

/-- The last token is the end of the source, and no other is. -/
theorem exists_eof_ofPieces {ps : List Piece} (hfit : ∀ piece ∈ ps, piece.Fits) (p : Place)
    (gap : List Char) (leading : List Comment) :
    ∃ init last, ofPieces p gap leading ps = init ++ [last] ∧
      (∀ t ∈ init, t.isEof = false) ∧ last.isEof = true ∧
      last.span = ⟨(p.advance (ps.flatMap Piece.text)).offset,
        (p.advance (ps.flatMap Piece.text)).offset⟩ := by
  induction ps generalizing p gap leading with
  | nil => exact ⟨[], _, rfl, List.forall_mem_nil _, rfl, rfl⟩
  | cons piece rest ih =>
    obtain ⟨hpiece, hrest⟩ := List.forall_mem_cons.mp hfit
    rw [List.flatMap_cons, Place.advance_append]
    rcases piece.cases_isToken with ⟨kind, hkind⟩ | hpassed
    · obtain ⟨init, last, hsplit, hinit, hlast, hspan⟩ := ih hrest (p.advance piece.text) [] []
      rw [ofPieces_of_token _ _ _ _ hkind, hsplit]
      refine ⟨_ :: init, last, rfl, List.forall_mem_cons.mpr ⟨?_, hinit⟩, hlast, hspan⟩
      exact beq_false_of_ne (hpiece.token kind hkind)
    · rw [ofPieces_of_not_token _ _ _ _ hpassed]
      exact ih hrest _ _ _

/-- A token that does not end the source is one of its pieces, at the place of that piece. -/
theorem exists_piece_of_mem {ps : List Piece} {p : Place} {gap : List Char} {leading : List Comment}
    {t : Token} (ht : t ∈ ofPieces p gap leading ps) (hend : t.isEof = false) :
    ∃ front piece rest, ps = front ++ piece :: rest ∧ piece.isToken = true ∧
      t.text = String.ofList piece.text ∧
      t.span = piece.spanAt (p.advance (front.flatMap Piece.text)) := by
  induction ps generalizing p gap leading with
  | nil =>
    rw [ofPieces, List.mem_singleton] at ht
    rw [ht] at hend
    cases hend
  | cons piece rest ih =>
    -- What is found among the later pieces is found behind one more.
    have hlater : ∀ gap' leading', t ∈ ofPieces (p.advance piece.text) gap' leading' rest →
        ∃ front found after, piece :: rest = front ++ found :: after ∧ found.isToken = true ∧
          t.text = String.ofList found.text ∧
          t.span = found.spanAt (p.advance (front.flatMap Piece.text)) := by
      intro gap' leading' hmem
      obtain ⟨front, found, after, rfl, htoken, htext, hspan⟩ := ih hmem
      refine ⟨piece :: front, found, after, rfl, htoken, htext, ?_⟩
      rw [hspan, List.flatMap_cons, Place.advance_append]
    rcases piece.cases_isToken with ⟨kind, hkind⟩ | hpassed
    · rw [ofPieces_of_token _ _ _ _ hkind] at ht
      rcases List.mem_cons.mp ht with rfl | ht
      · have htoken : piece.isToken = true := by rw [Piece.isToken, hkind]
        exact ⟨[], piece, rest, rfl, htoken, rfl, rfl⟩
      · exact hlater _ _ ht
    · rw [ofPieces_of_not_token _ _ _ _ hpassed] at ht
      exact hlater _ _ ht

/-- A comment that rides on a token is one of the pieces, at the place of that piece. -/
theorem exists_piece_of_mem_leading {ps : List Piece} {p : Place} {gap : List Char}
    {leading : List Comment} {t : Token} (ht : t ∈ ofPieces p gap leading ps) {k : Comment}
    (hk : k ∈ t.leading) :
    k ∈ leading ∨ ∃ front piece rest, ps = front ++ piece :: rest ∧
      k ∈ piece.commentAt (p.advance (front.flatMap Piece.text)) := by
  induction ps generalizing p gap leading with
  | nil =>
    rw [ofPieces, List.mem_singleton] at ht
    rw [ht] at hk
    exact .inl hk
  | cons piece rest ih =>
    -- A comment on a later token is carried on to it, or is a piece one further on.
    have hlater : ∀ gap' leading', t ∈ ofPieces (p.advance piece.text) gap' leading' rest →
        k ∈ leading' ∨ ∃ front found after, piece :: rest = front ++ found :: after ∧
          k ∈ found.commentAt (p.advance (front.flatMap Piece.text)) := by
      intro gap' leading' hmem
      rcases ih hmem with hmem | ⟨front, found, after, rfl, hfound⟩
      · exact .inl hmem
      · refine .inr ⟨piece :: front, found, after, rfl, ?_⟩
        rw [List.flatMap_cons, Place.advance_append]
        exact hfound
    rcases piece.cases_isToken with ⟨kind, hkind⟩ | hpassed
    · rw [ofPieces_of_token _ _ _ _ hkind] at ht
      rcases List.mem_cons.mp ht with rfl | ht
      · exact .inl hk
      · rcases hlater _ _ ht with hmem | hfound
        · cases hmem
        · exact .inr hfound
    · -- A comment that is carried on now is one from before, or this piece.
      rw [ofPieces_of_not_token _ _ _ _ hpassed] at ht
      rcases hlater _ _ ht with hmem | hfound
      · rcases List.mem_append.mp hmem with hmem | hmem
        · exact .inl hmem
        · exact .inr ⟨[], piece, rest, rfl, hmem⟩
      · exact .inr hfound

/-- A piece covers its text wherever it stands among others. -/
theorem Piece.covers_spanAt_of_mem (base : Nat) {front rest : List Piece} {piece : Piece}
    (hsource : source.toList = (front ++ piece :: rest).flatMap Piece.text) :
    (piece.spanAt ((Place.start base).advance (front.flatMap Piece.text))).Covers source base
      piece.text := by
  rw [List.flatMap_append, List.flatMap_cons] at hsource
  exact Piece.covers_spanAt hsource

end Layout

/-- Spans of which each ends before the next one starts are in order altogether. -/
theorem pairwise_of_isChain {ss : List Span} (hchain : ss.IsChain fun a b => a.hi ≤ b.lo)
    (hle : ∀ s ∈ ss, s.lo ≤ s.hi) : ss.Pairwise fun a b => a.hi ≤ b.lo := by
  induction ss with
  | nil => exact .nil
  | cons a rest ih =>
    obtain ⟨hfirst, hrest⟩ := List.isChain_cons.mp hchain
    have hpairs := ih hrest (List.forall_mem_cons.mp hle).2
    refine List.pairwise_cons.mpr ⟨?_, hpairs⟩
    cases rest with
    | nil => exact List.forall_mem_nil _
    | cons b more =>
      have hab : a.hi ≤ b.lo := hfirst b rfl
      have hb : b.lo ≤ b.hi := hle b (List.mem_cons_of_mem a List.mem_cons_self)
      refine List.forall_mem_cons.mpr ⟨hab, fun s hs => ?_⟩
      have hbs : b.hi ≤ s.lo := (List.pairwise_cons.mp hpairs).1 s hs
      omega

/-- The tokens of a source come from pieces that fit and spell it. -/
theorem exists_pieces_of_tokenize {source : String} {base : Nat} {ts : List Token}
    (h : tokenize source base = .ok ts) :
    ∃ ps, pieces true source.toList = .ok ps ∧ ts = ofPieces (Place.start base) [] [] ps := by
  unfold tokenize at h
  split at h
  · rename_i ps hps
    cases h
    exact ⟨ps, hps, rfl⟩
  · cases h

theorem exists_eof_of_tokenize {source : String} {base : Nat} {ts : List Token}
    (h : tokenize source base = .ok ts) :
    ∃ init last, ts = init ++ [last] ∧ (∀ t ∈ init, t.isEof = false) ∧ last.isEof = true ∧
      last.span = ⟨base + source.utf8ByteSize, base + source.utf8ByteSize⟩ := by
  obtain ⟨ps, hpieces, rfl⟩ := exists_pieces_of_tokenize h
  have hend := exists_eof_ofPieces (fits_of_mem_pieces hpieces) (Place.start base) [] []
  rwa [Place.offset_advance, spell_pieces hpieces, String.utf8Len_toList] at hend

section Order

variable {source : String} {base : Nat} {ts : List Token}

/-- From the start of a source on, comments and tokens follow each other with blanks between
them. -/
theorem chain_spans (h : tokenize source base = .ok ts) :
    (⟨base, base⟩ :: spans ts).IsChain (FollowsBlank source base) ∧
      ∀ s ∈ spans ts, ∃ text, s.Covers source base text := by
  obtain ⟨ps, hpieces, rfl⟩ := exists_pieces_of_tokenize h
  have hspans := spans_ofPieces (Place.start base) [] [] ps
  rw [List.map_nil, List.nil_append] at hspans
  rw [hspans]
  exact chain_solidSpans (fits_of_mem_pieces hpieces) (List.append_nil [])
    (spell_pieces hpieces).symm rfl (List.forall_mem_nil _)

theorem within_of_mem_spans (h : tokenize source base = .ok ts) {s : Span} (hs : s ∈ spans ts) :
    s.Within source base := by
  obtain ⟨text, hcovers⟩ := (chain_spans h).2 s hs
  exact hcovers.within

/-- **Comments and tokens are in the order of the source.** -/
theorem pairwise_spans (h : tokenize source base = .ok ts) :
    (spans ts).Pairwise fun a b => a.hi ≤ b.lo := by
  have hchain := (List.isChain_cons.mp (chain_spans h).1).2
  refine pairwise_of_isChain (hchain.imp ?_) fun s hs => (within_of_mem_spans h hs).lo_le_hi
  rintro a b ⟨blanks, -, hcovers⟩
  exact hcovers.within.lo_le_hi

/-- A token that does not end the source has a text, and stands where the source has it. -/
theorem covers_of_mem (h : tokenize source base = .ok ts) {t : Token} (ht : t ∈ ts)
    (hend : t.isEof = false) :
    ∃ text, text ≠ [] ∧ t.text = String.ofList text ∧ t.span.Covers source base text := by
  obtain ⟨ps, hpieces, rfl⟩ := exists_pieces_of_tokenize h
  obtain ⟨front, piece, rest, rfl, -, htext, hspan⟩ := exists_piece_of_mem ht hend
  have hfits := fits_of_mem_pieces hpieces piece (List.mem_append_right _ List.mem_cons_self)
  refine ⟨piece.text, hfits.text_ne_nil, htext, ?_⟩
  rw [hspan]
  exact Piece.covers_spanAt_of_mem base (spell_pieces hpieces).symm

end Order

end Token

/-! ### Tokens against the source -/

/-- A comment says what the source says at its span: one between `/*` and `*/` all of it, one that
runs to the end of its line all but the blanks at its end. -/
def Comment.Says (k : Comment) (source : String) (base : Nat) : Prop :=
  let written := (k.span.textIn source base).toList
  (['/', '*'] <+: written ∧ k.text = String.ofList written) ∨
    ((['/', '/'] <+: written ∨ ['#'] <+: written) ∧ '\n' ∉ written ∧
      k.text = String.ofList (trimEnd written))

/-- The comment that a piece is says what the piece says. -/
theorem Token.Piece.says_of_mem_commentAt {source : String} {base : Nat} {p : Place}
    {piece : Token.Piece} (hfits : piece.Fits)
    (hcovers : (piece.spanAt p).Covers source base piece.text) {k : Comment}
    (hk : k ∈ piece.commentAt p) : k.Says source base := by
  unfold Token.Piece.commentAt at hk
  unfold Comment.Says
  split at hk
  · rename_i hkind
    cases List.mem_singleton.mp hk
    obtain ⟨hopen, hbreak⟩ := hfits.line hkind
    rw [hcovers.textIn_eq, String.toList_ofList]
    exact .inr ⟨hopen, hbreak, rfl⟩
  · rename_i hkind
    cases List.mem_singleton.mp hk
    rw [hcovers.textIn_eq, String.toList_ofList]
    exact .inl ⟨hfits.block hkind, rfl⟩
  · cases hk

/-- Tokens account for a source whose first byte has offset `base`. -/
structure Token.Lossless (source : String) (base : Nat) (ts : List Token) : Prop where
  /-- The last token, and no other, ends the source, and it stands at its end. -/
  ending : ∃ init last, ts = init ++ [last] ∧ (∀ t ∈ init, t.isEof = false) ∧
    last.isEof = true ∧ last.span = ⟨base + source.utf8ByteSize, base + source.utf8ByteSize⟩
  /-- Every other token has a text, which is that of the source at its span. -/
  texts : ∀ t ∈ ts, t.isEof = false → t.text ≠ "" ∧ t.span.textIn source base = t.text
  /-- Every comment says what the source says at its span. -/
  comments : ∀ t ∈ ts, ∀ k ∈ t.leading, k.Says source base
  /-- All spans start and end between characters. -/
  boundaries : ∀ s ∈ Token.spans ts, s.Within source base
  /-- The spans are in the order of the source, and no two overlap. -/
  increasing : (Token.spans ts).Pairwise fun a b => a.hi ≤ b.lo
  /-- From the start of the source on, only blanks stand between one span and the next. -/
  gaps : (⟨base, base⟩ :: Token.spans ts).IsChain fun a b =>
    ∀ c ∈ (Span.mk a.hi b.lo |>.textIn source base).toList, isBlank c = true

/-- **Nothing is lost in the tokens of a source.** -/
theorem tokenize_lossless {source : String} {base : Nat} {ts : List Token}
    (h : Token.tokenize source base = .ok ts) : Token.Lossless source base ts := by
  refine ⟨Token.exists_eof_of_tokenize h, ?texts, ?comments,
    fun s hs => Token.within_of_mem_spans h hs, Token.pairwise_spans h,
    (Token.chain_spans h).1.imp ?gaps⟩
  case texts =>
    intro t ht hend
    obtain ⟨text, hne, htext, hcovers⟩ := Token.covers_of_mem h ht hend
    rw [hcovers.textIn_eq, htext]
    exact ⟨fun hempty => hne (String.ofList_eq_empty_iff.mp hempty), rfl⟩
  case comments =>
    intro t ht k hk
    obtain ⟨ps, hpieces, rfl⟩ := Token.exists_pieces_of_tokenize h
    rcases Token.exists_piece_of_mem_leading ht hk with hmem | ⟨front, piece, rest, rfl, hpiece⟩
    · cases hmem
    · have hcovers := Token.Piece.covers_spanAt_of_mem base (Token.spell_pieces hpieces).symm
      have hfits := Token.fits_of_mem_pieces hpieces piece
        (List.mem_append_right _ List.mem_cons_self)
      exact Token.Piece.says_of_mem_commentAt hfits hcovers hpiece
  case gaps =>
    rintro a b ⟨blanks, hblanks, hcovers⟩
    rw [hcovers.textIn_eq, String.toList_ofList]
    exact hblanks

end ClassSugar
