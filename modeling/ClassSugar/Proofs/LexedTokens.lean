import ClassSugar.Token.Lexer
import ClassSugar.Proofs.LiteralMachine
import ClassSugar.Proofs.PieceLocality
import ClassSugar.Proofs.Shift

/-!
# The lexer reads the tokens of a source

`Token.tokenize` says what the tokens of a source are, with positions that have no bound and that are
computed from the text before a token. `Token.lex` reads them one after the other, with a scanner
that counts along and with positions in machine words. Here the two are brought together: the lexer
finds the tokens, the comments and the errors that the source has, and the ends of their spans are
the words of the exact ones (`Token.lex_eq`).

One call for a token does what the walk over the pieces does up to that token
(`Scanner.tokens_eq`). For a literal this rests on the machine that scans it, for any other piece on
the reading of so many characters; either way the scanner only reads (`Scanner.Reads`), so it stands
where the text before it leads to.

As long as positions fit into words, words are no restriction: then spans are exact
(`Token.map_word_of_fits`).
-/

namespace ClassSugar

open ClassSugar.Text

/-! ### Positions as words -/

/-- The span with its ends as words. -/
def Span.word (s : Span) : Span :=
  .ofWords (.ofNat s.lo) (.ofNat s.hi)

/-- The comment with the ends of its span as words. -/
def Comment.word (k : Comment) : Comment :=
  { k with span := k.span.word }

namespace Token

/-- The token with the ends of its span, and of those of its comments, as words. -/
def word (t : Token) : Token :=
  { t with span := t.span.word, leading := t.leading.map Comment.word }

/-- The error with the ends of its span as words. -/
def Error.word : Token.Error → Token.Error
  | .unterminated what span line => .unterminated what span.word line
  | .unexpectedChar c span line => .unexpectedChar c span.word line

/-- Where a scanner stands in a source that starts at `base`. -/
def Scanner.placeAt (base : UInt32) (s : Scanner) : Place :=
  s.place.shift base.toNat 0

section Words

variable (base : UInt32) {s s' : Scanner} {cs : List Char}

theorem word_add (n : Nat) : base + .ofNat n = .ofNat (n + base.toNat) := by
  rw [UInt32.ofNat_add, UInt32.ofNat_toNat, UInt32.add_comm]

/-- Behind a text the scanner stands where the text leads to. -/
theorem Scanner.Passes.placeAt (h : s.Passes cs s') :
    s'.placeAt base = (s.placeAt base).advance cs := by
  rw [Scanner.placeAt, Scanner.placeAt, h.place, Place.advance_shift]

theorem Scanner.Passes.spanTo (h : s.Passes cs s') :
    s.spanTo base s' = (Span.mk (s.placeAt base).offset ((s.placeAt base).advance cs).offset).word := by
  rw [Scanner.spanTo, word_add, word_add, ← h.placeAt]
  rfl

theorem Scanner.Passes.upTo (h : s.Passes cs s') : s.upTo s' = cs := by
  have hlen : s.rest.length - s'.rest.length = cs.length := by
    rw [h.rest, List.length_append]
    omega
  rw [Scanner.upTo, hlen, h.rest, List.take_left]

/-- The token that a scanner has passed. -/
theorem Scanner.Passes.tokenTo (h : s.Passes cs s') (gap : List Char) (leading : List Comment)
    (kind : Token.Kind) (pieceKind : Piece.Kind) :
    s.tokenTo base gap (leading.map Comment.word) kind s' =
      (Piece.tokenAt (s.placeAt base) gap leading kind ⟨pieceKind, cs⟩).word := by
  rw [Scanner.tokenTo, h.upTo, h.spanTo]
  rfl

/-- The comment that a scanner has passed, if it is one. -/
theorem Scanner.Passes.commentTo (h : s.Passes cs s') (kind : Piece.Kind) :
    s.commentTo base kind s' =
      (Piece.commentAt (s.placeAt base) ⟨kind, cs⟩).map Comment.word := by
  unfold Scanner.commentTo Piece.commentAt
  rw [h.upTo, h.spanTo]
  cases kind <;> rfl

end Words

/-! ### Literals -/

variable {c : Char} {r : List Char} {call : Call}

/-- A string literal starts with no blank and is no comment. -/
theorem next_of_opening {o : Opening (c :: r)} (ho : Opening.of? (c :: r) = some o)
    (lineStart : Bool) :
    Piece.next lineStart c r = (Piece.token c r).map fun (kind, t) => (.token kind, t) := by
  obtain ⟨marks, r', hopens⟩ := Opens.of_of? ho
  have hc : c = '@' ∨ c = '$' ∨ c = '"' := by
    have hspell := hopens.spell
    have hmarks := hopens.areMarks
    cases marks with
    | nil => exact .inr (.inr (List.cons.inj hspell).1)
    | cons d marks =>
      rw [(List.cons.inj hspell).1]
      have hd : (d == '@' || d == '$') = true := hmarks d List.mem_cons_self
      rw [Bool.or_eq_true, beq_iff_eq, beq_iff_eq] at hd
      exact hd.imp_right .inl
  rcases hc with rfl | rfl | rfl <;> rfl

/-- **The lexer takes for a literal what is one**, and calls the scanner that says what is left
behind it. -/
theorem exists_next_of_literal {kind : Token.Kind}
    (h : Scanner.literal? (c :: r) = some (kind, call)) (lineStart : Bool) :
    ∃ x : Except Open (Cut (c :: r)), call.finish (c :: r) (c :: r) = x.map Cut.rest ∧
      Piece.next lineStart c r = (x.mapError Fault.unclosed).map fun t => (.token kind, t) := by
  unfold Scanner.literal? at h
  split at h
  · rename_i hsome
    obtain ⟨o, ho⟩ := Option.isSome_iff_exists.mp hsome
    cases h
    refine ⟨o.close, finish_string ho, ?_⟩
    rw [next_of_opening ho, Piece.token]
    simp only [ho]
    cases o.close <;> rfl
  · rename_i hnone
    rw [Bool.not_eq_true, Option.isSome_eq_false_iff, Option.isNone_iff_eq_none] at hnone
    split at h
    · rename_i hquote
      cases h
      obtain rfl : c = '\'' := Option.some.inj hquote
      refine ⟨(charRest ('\'' :: r) r).map (·.cons '\''), map_rest_map, ?_⟩
      show (Piece.token '\'' r).map _ = _
      rw [Piece.token]
      simp only [hnone, if_true]
      cases charRest ('\'' :: r) r <;> rfl
    · cases h

/-- The scanner stands behind a literal, if that is closed. -/
theorem Scanner.reads_literal {s s' : Scanner} {x : Except Open (Cut (c :: r))}
    (hrest : s.rest = c :: r) (hx : call.finish (c :: r) (c :: r) = x.map Cut.rest)
    (hrun : (Scan.start call s.atToken).run = .ok s') :
    ∃ t, x = .ok t ∧ t.rest = s'.rest ∧ s.atToken.Reads t.read s' := by
  have hanswer := Scan.answer_eq (Scan.start call s.atToken)
  have hstart : s.atToken.rest = c :: r := hrest
  rw [Scan.answer_start, hrun, hstart, hx] at hanswer
  cases x with
  | error left => cases hanswer
  | ok t =>
    obtain ⟨cs, hreads⟩ : s.atToken.Reaches s' := by
      have hnested := Scan.nested_run (Scan.nested_start call s.atToken)
      rwa [hrun] at hnested
    have hleft : t.rest = s'.rest := Except.ok.inj hanswer
    have hread : cs = t.read := by
      have hspell := hreads.rest
      rw [hstart, ← t.read_append_rest, hleft] at hspell
      exact (List.append_cancel_right hspell).symm
    exact ⟨t, rfl, hleft, hread ▸ hreads⟩

/-- What is left open, if the literal is not closed, was found by reading. -/
theorem Scanner.reaches_unclosed {s : Scanner} {left : Unfinished} {x : Except Open (Cut (c :: r))}
    (hrest : s.rest = c :: r) (hx : call.finish (c :: r) (c :: r) = x.map Cut.rest)
    (hrun : (Scan.start call s.atToken).run = .error left) :
    x = .error left.toOpen ∧ s.atToken.Reaches left.start ∧ s.atToken.Reaches left.stop := by
  have hanswer := Scan.answer_eq (Scan.start call s.atToken)
  have hstart : s.atToken.rest = c :: r := hrest
  rw [Scan.answer_start, hrun, hstart, hx] at hanswer
  have hnested := Scan.nested_run (Scan.nested_start call s.atToken)
  rw [hrun] at hnested
  cases x with
  | error open' => exact ⟨congrArg Except.error (Except.error.inj hanswer), hnested⟩
  | ok t => cases hanswer

/-! ### One token after the other -/

namespace Halt

/-- The same trouble, told by texts. -/
def fault : Halt → Fault
  | .unclosed left => .unclosed left.toOpen
  | .stray c _ stop => .stray c stop.rest

end Halt

namespace Scanner

variable {c : Char} {r : List Char}

theorem literal_eq_none_iff :
    literal? (c :: r) = none ↔ Opening.of? (c :: r) = none ∧ c ≠ '\'' := by
  unfold literal?
  cases Opening.of? (c :: r) <;> simp

/-- A comment is left open at the end of the source. -/
theorem eq_of_comment_error {lineStart : Bool} {left : Open}
    (h : Piece.comment? lineStart c r = some (.error left)) :
    left = ⟨.blockComment, c :: r, []⟩ := by
  -- Only a block comment can be left open, and it is then read to the end.
  have hblock : ∀ (start cs : List Char) (left : Open), blockRest start cs = .error left →
      left = ⟨.blockComment, start, []⟩ := by
    intro start cs left
    fun_induction blockRest start cs with
    | case1 =>
      rintro ⟨⟩
      rfl
    | case2 =>
      intro hrest
      cases hrest
    | case3 c r _ ih =>
      intro hrest
      cases hr : blockRest start r with
      | error left' =>
        rw [hr] at hrest
        cases hrest
        exact ih hr
      | ok t => rw [hr] at hrest; cases hrest
  unfold Piece.comment? at h
  split at h
  · cases h
  · rename_i r
    cases hr : blockRest ('/' :: '*' :: r) r with
    | error left' =>
      rw [hr] at h
      cases h
      exact hblock _ _ _ hr
    | ok t => rw [hr] at h; cases h
  · split at h <;> cases h
  · cases h

/-- Without a literal, a piece can only be a comment that is left open or a stray character. -/
theorem cases_fault {lineStart : Bool} {fault : Fault} (hliteral : literal? (c :: r) = none)
    (h : Piece.next lineStart c r = .error fault) :
    fault = .unclosed ⟨.blockComment, c :: r, []⟩ ∨ fault = .stray c r := by
  unfold Piece.next at h
  split at h
  · cases h
  split at h
  · cases h
  · rename_i left hcomment
    cases h
    exact .inl (congrArg Fault.unclosed (eq_of_comment_error hcomment))
  · obtain ⟨hopening, hquote⟩ := literal_eq_none_iff.mp hliteral
    unfold Piece.token at h
    simp only [hopening, if_neg hquote] at h
    right
    split at h
    · cases h
    split at h
    · cases h
    split at h
    · cases h
    · cases h
      rfl

/-- So its fault is told from where the piece starts. -/
theorem fault_haltAt {s : Scanner} {fault : Fault} (hrest : s.rest = c :: r)
    (hliteral : literal? (c :: r) = none) (h : Piece.next s.lineStart c r = .error fault) :
    (s.haltAt fault).fault = fault := by
  rcases cases_fault hliteral h with rfl | rfl
  · show Fault.unclosed ⟨_, s.rest, (s.bumps _).rest⟩ = _
    simp [hrest]
  · show Fault.stray c s.bump.rest = _
    rw [bump, hrest]

/-- A part of the text that is left, read over character by character. -/
theorem reads_cut {s : Scanner} {cs : List Char} (hrest : s.rest = cs) (t : Cut cs) :
    s.Reads t.read (s.bumps t.read.length) := by
  have htake : s.rest.take t.read.length = t.read := by
    have hspell := congrArg (List.take t.read.length) t.read_append_rest
    rw [List.take_left] at hspell
    rw [hrest, ← hspell]
  have hreads := s.reads_bumps t.read.length
  rwa [htake] at hreads

/-- The tokens that a scanner has before it, from all pieces at once. -/
def tokens (base : UInt32) (s : Scanner) : Except Fault (List Token) :=
  (pieces s.lineStart s.rest).map fun ps => (ofPieces (s.placeAt base) [] [] ps).map word

/-- A token and the tokens behind it. -/
def tokensFrom (base : UInt32) (t : Token) (s : Scanner) : Except Fault (List Token) :=
  if t.isEof then .ok [t] else (s.tokens base).map (t :: ·)

theorem rest_of_passes {s s' : Scanner} {cs : List Char} {t : Cut cs} (hrest : s.rest = cs)
    (h : s.Passes t.read s') : s'.rest = t.rest := by
  have hspell := h.rest
  rw [hrest] at hspell
  exact (List.append_cancel_left (t.read_append_rest.trans hspell)).symm

/-- To stand at a token is to stand where one stood. -/
theorem passes_of_atToken {s s' : Scanner} {cs : List Char} (h : s.atToken.Passes cs s') :
    s.Passes cs s' :=
  ⟨h.rest, h.read, h.place⟩

/-- The pieces up to a token make that token. -/
theorem map_ofPieces_token {base : UInt32} {s s' : Scanner} {gap : List Char}
    {leading : List Comment} {kind : Token.Kind} {t : Cut (c :: r)} (hrest : s.rest = c :: r)
    (hnext : Piece.next s.lineStart c r = .ok (.token kind, t))
    (hreads : s.atToken.Reads t.read s') :
    (pieces s.lineStart s.rest).map
        (fun ps => (ofPieces (s.placeAt base) gap leading ps).map word) =
      tokensFrom base (s.tokenTo base gap (leading.map Comment.word) kind s') s' := by
  have hkind : kind ≠ .eof := (Piece.fits_next hnext).token kind rfl
  have hsolid : (s.tokenTo base gap (leading.map Comment.word) kind s').isEof = false :=
    beq_false_of_ne hkind
  have hafter : s'.lineStart = Piece.lineStartAfter s.lineStart ⟨.token kind, t.read⟩ := by
    rw [hreads.lineStart]
    simp [Piece.lineStartAfter, Piece.isToken, atToken]
  have hpasses := passes_of_atToken hreads.toPasses
  have hleft : s'.rest = t.rest := rest_of_passes hrest hpasses
  have htoken := hpasses.tokenTo base gap leading kind (.token kind)
  have hplace := hpasses.placeAt base
  rw [hrest, pieces_of_next hnext, tokensFrom, hsolid, tokens, hafter, hleft, hplace]
  cases pieces (Piece.lineStartAfter s.lineStart ⟨.token kind, t.read⟩) t.rest with
  | error fault => rfl
  | ok ps =>
    have hwalk : ofPieces (s.placeAt base) gap leading (⟨.token kind, t.read⟩ :: ps) = _ :=
      ofPieces_of_token _ _ _ _ rfl
    show Except.ok ((ofPieces (s.placeAt base) gap leading _).map word) = _
    rw [hwalk, List.map_cons, ← htoken]
    rfl

/-- **A call for a token does what the walk over the pieces does.** -/
theorem map_ofPieces_eq (base : UInt32) (gap : List Char) (leading leading' : List Comment)
    (hleading : leading' = leading.map Comment.word) (s : Scanner) :
    (pieces s.lineStart s.rest).map
        (fun ps => (ofPieces (s.placeAt base) gap leading ps).map word) =
      ((nextFrom base gap leading' s).mapError Halt.fault).bind
        fun found => tokensFrom base found.1 found.2 := by
  fun_induction nextFrom base gap leading' s generalizing leading with
  -- The end of the source.
  | case1 gap leading' s hrest =>
    subst hleading
    rw [hrest]
    unfold pieces
    have htoken := (Reads.refl s).toPasses.tokenTo base gap leading .eof .blank
    show Except.ok _ = tokensFrom base _ s
    rw [htoken]
    rfl
  -- A literal that is left open.
  | case2 gap leading' s c r hrest kind call hliteral left hrun =>
    obtain ⟨x, hx, hnext⟩ := exists_next_of_literal hliteral s.lineStart
    obtain ⟨rfl, -⟩ := reaches_unclosed hrest hx hrun
    rw [hrest]
    unfold pieces
    simp only [hnext]
    rfl
  -- A literal.
  | case3 gap leading' s c r hrest kind call hliteral s' hrun =>
    subst hleading
    obtain ⟨x, hx, hnext⟩ := exists_next_of_literal hliteral s.lineStart
    obtain ⟨t, rfl, -, hreads⟩ := reads_literal hrest hx hrun
    exact map_ofPieces_token hrest hnext hreads
  -- A piece that cannot be cut off.
  | case4 gap leading' s c r hrest hliteral fault hnext =>
    rw [hrest]
    unfold pieces
    simp only [hnext]
    exact congrArg Except.error (fault_haltAt hrest hliteral hnext).symm
  -- Another token.
  | case5 gap leading' s c r hrest hliteral kind t hnext s' =>
    subst hleading
    exact map_ofPieces_token hrest hnext (reads_cut (s := s.atToken) hrest t)
  -- Blanks or a comment: the call goes on behind them, with one comment more or none.
  | case6 gap leading' s c r hrest hliteral kind t hkind hnext s' ih =>
    have hreads : s.Reads t.read s' := reads_cut hrest t
    have hskip : (⟨kind, t.read⟩ : Piece).isToken = false := by
      rcases Piece.cases_isToken ⟨kind, t.read⟩ with ⟨kind', hkind'⟩ | hskip
      · exact absurd hkind' (hkind kind')
      · exact hskip
    have hafter : s'.lineStart = Piece.lineStartAfter s.lineStart ⟨kind, t.read⟩ := by
      rw [hreads.lineStart, Piece.lineStartAfter, hskip]
      simp [Bool.or_comm]
    have hcomments := hreads.toPasses.commentTo base kind
    have hplace := hreads.toPasses.placeAt base
    have hleft : s'.rest = t.rest := rest_of_passes hrest hreads.toPasses
    rw [← ih (leading ++ Piece.commentAt (s.placeAt base) ⟨kind, t.read⟩)
      (by rw [hleading, hcomments, List.map_append]), hrest, pieces_of_next hnext, hafter, hleft,
      hplace]
    cases pieces (Piece.lineStartAfter s.lineStart ⟨kind, t.read⟩) t.rest with
    | error fault => rfl
    | ok ps =>
      exact congrArg (fun ts => Except.ok (ts.map word))
        (ofPieces_of_not_token (s.placeAt base) gap leading ps hskip)

/-- Reading one token after the other gives the tokens of all pieces. -/
theorem tokens_eq (base : UInt32) (s : Scanner) :
    s.tokens base = ((s.next base).mapError Halt.fault).bind
      fun found => tokensFrom base found.1 found.2 :=
  map_ofPieces_eq base [] [] [] rfl s

end Scanner

/-- **The lexer reads the tokens of all pieces.** -/
theorem mapError_lexFrom (base : UInt32) (s : Scanner) :
    (lexFrom base s).mapError Halt.fault = s.tokens base := by
  fun_induction lexFrom base s with
  | case1 s halt hnext =>
    rw [Scanner.tokens_eq, hnext]
    rfl
  | case2 s t s' hnext heof =>
    rw [Scanner.tokens_eq, hnext]
    show _ = Scanner.tokensFrom base t s'
    rw [Scanner.tokensFrom, if_pos heof]
    rfl
  | case3 s t s' hnext heof ih =>
    rw [Scanner.tokens_eq, hnext]
    show _ = Scanner.tokensFrom base t s'
    rw [Scanner.tokensFrom, if_neg heof, ← ih]
    cases lexFrom base s' <;> rfl

/-! ### Where the lexer stands -/

/-- Where the trouble starts and ends was found by reading from a scanner on. -/
def Halt.From (s₀ : Scanner) : Halt → Prop
  | .unclosed left => (∃ cs, s₀.Passes cs left.start) ∧ ∃ cs, s₀.Passes cs left.stop
  | .stray c start stop => (∃ cs, s₀.Passes cs start) ∧ start.Passes [c] stop

theorem Halt.From.of_passes {s₀ s : Scanner} {cs : List Char} {halt : Halt} (hs : s₀.Passes cs s)
    (h : halt.From s) : halt.From s₀ := by
  cases halt with
  | unclosed left =>
    obtain ⟨⟨as, has⟩, bs, hbs⟩ := h
    exact ⟨⟨_, hs.trans has⟩, _, hs.trans hbs⟩
  | stray c start stop =>
    obtain ⟨⟨as, has⟩, hstop⟩ := h
    exact ⟨⟨_, hs.trans has⟩, hstop⟩

namespace Scanner

/-- The result of a call for a token was found by reading, and a token that does not end the source
is not empty. -/
def Goes (s : Scanner) : Except Halt (Token × Scanner) → Prop
  | .ok (t, s') => ∃ cs, s.Passes cs s' ∧ (t.isEof = false → cs ≠ [])
  | .error halt => halt.From s

theorem Goes.of_passes {s₀ s : Scanner} {cs : List Char} {found : Except Halt (Token × Scanner)}
    (hs : s₀.Passes cs s) (h : s.Goes found) : s₀.Goes found := by
  cases found with
  | error halt => exact Halt.From.of_passes hs h
  | ok found =>
    obtain ⟨ds, hds, hsolid⟩ := h
    exact ⟨cs ++ ds, hs.trans hds, fun ht => List.append_ne_nil_of_right_ne_nil _ (hsolid ht)⟩

theorem from_haltAt {s : Scanner} {c : Char} {r : List Char} {fault : Fault}
    (hrest : s.rest = c :: r) (hliteral : literal? (c :: r) = none)
    (h : Piece.next s.lineStart c r = .error fault) : (s.haltAt fault).From s := by
  have hhere : s.Passes [] s := (Reads.refl s).toPasses
  rcases cases_fault hliteral h with rfl | rfl
  · exact ⟨⟨[], hhere⟩, _, (s.reads_bumps _).toPasses⟩
  · have hone := (s.reads_bumps 1).toPasses
    rw [hrest] at hone
    exact ⟨⟨[], hhere⟩, hone⟩

/-- **The lexer only reads.** -/
theorem goes_nextFrom (base : UInt32) (gap : List Char) (leading : List Comment) (s : Scanner) :
    s.Goes (nextFrom base gap leading s) := by
  fun_induction nextFrom base gap leading s with
  | case1 gap leading s hrest => exact ⟨[], (Reads.refl s).toPasses, fun h => by cases h⟩
  | case2 gap leading s c r hrest kind call hliteral left hrun =>
    obtain ⟨x, hx, -⟩ := exists_next_of_literal hliteral s.lineStart
    obtain ⟨-, ⟨as, has⟩, bs, hbs⟩ := reaches_unclosed hrest hx hrun
    exact ⟨⟨as, passes_of_atToken has.toPasses⟩, bs, passes_of_atToken hbs.toPasses⟩
  | case3 gap leading s c r hrest kind call hliteral s' hrun =>
    obtain ⟨x, hx, -⟩ := exists_next_of_literal hliteral s.lineStart
    obtain ⟨t, -, -, hreads⟩ := reads_literal hrest hx hrun
    exact ⟨t.read, passes_of_atToken hreads.toPasses, fun _ => t.read_ne_nil⟩
  | case4 gap leading s c r hrest hliteral fault hnext => exact from_haltAt hrest hliteral hnext
  | case5 gap leading s c r hrest hliteral kind t hnext s' =>
    have hreads := reads_cut (s := s.atToken) hrest t
    exact ⟨t.read, passes_of_atToken hreads.toPasses, fun _ => t.read_ne_nil⟩
  | case6 gap leading s c r hrest hliteral kind t hkind hnext s' ih =>
    exact ih.of_passes (reads_cut hrest t).toPasses

end Scanner

theorem from_of_lexFrom {base : UInt32} {s : Scanner} {halt : Halt}
    (h : lexFrom base s = .error halt) : halt.From s := by
  fun_induction lexFrom base s with
  | case1 s halt' hnext =>
    cases h
    have hgoes := Scanner.goes_nextFrom base [] [] s
    rwa [← Scanner.next, hnext] at hgoes
  | case2 => cases h
  | case3 s t s' hnext heof ih =>
    have hgoes := Scanner.goes_nextFrom base [] [] s
    rw [← Scanner.next, hnext] at hgoes
    obtain ⟨cs, hcs, -⟩ := hgoes
    cases hrest : lexFrom base s' with
    | ok ts => rw [hrest] at h; cases h
    | error halt' =>
      rw [hrest] at h
      cases h
      exact (ih hrest).of_passes hcs

/-- The part of a source up to where its fault was found. -/
def Fault.before (source : List Char) : Fault → List Char
  | .unclosed left => source.take (source.length - left.stop.length)
  | .stray _ rest => source.take (source.length - rest.length)

section Start

variable {source : List Char} {s : Scanner} {cs : List Char}

theorem Scanner.Passes.take_eq (h : (Scanner.start source).Passes cs s) :
    source.take (source.length - s.rest.length) = cs := by
  have hsource : source = cs ++ s.rest := h.rest
  have hlen : source.length - s.rest.length = cs.length := by
    rw [hsource, List.length_append]
    omega
  rw [hlen, hsource, List.take_left]

/-- **A scanner stands where the text before it leads to.** -/
theorem Scanner.Passes.placeOf_eq (h : (Scanner.start source).Passes cs s) (base : UInt32) :
    placeOf base.toNat source s.rest = s.placeAt base := by
  rw [placeOf, h.take_eq, h.placeAt]
  show _ = ((Place.start 0).shift base.toNat 0).advance cs
  rw [← Place.start_add, Nat.zero_add]

theorem Halt.From.before_eq {halt : Halt} (h : halt.From (.start source)) :
    halt.stop.read.reverse = halt.fault.before source := by
  obtain ⟨cs, hcs, hbefore⟩ : ∃ cs, (Scanner.start source).Passes cs halt.stop ∧
      halt.fault.before source = source.take (source.length - halt.stop.rest.length) := by
    cases halt with
    | unclosed left =>
      obtain ⟨-, cs, hcs⟩ := h
      exact ⟨cs, hcs, rfl⟩
    | stray c start stop =>
      obtain ⟨⟨cs, hcs⟩, hstop⟩ := h
      exact ⟨cs ++ [c], hcs.trans hstop, rfl⟩
  rw [hbefore, hcs.take_eq, hcs.read]
  simp [Scanner.start]

/-- The lexer finds an error where it is. -/
theorem Halt.From.locate_eq {halt : Halt} (h : halt.From (.start source)) (base : UInt32) :
    halt.locate base = (halt.fault.locate base.toNat source).word := by
  cases halt with
  | unclosed left =>
    obtain ⟨⟨as, has⟩, bs, hbs⟩ := h
    show _ = Error.unterminated _ _ _
    rw [show left.toOpen.start = left.start.rest from rfl,
      show left.toOpen.stop = left.stop.rest from rfl, has.placeOf_eq, hbs.placeOf_eq]
    show Error.unterminated _ (left.start.spanTo base left.stop) _ = _
    rw [Scanner.spanTo, word_add, word_add]
    rfl
  | stray c start stop =>
    obtain ⟨⟨as, has⟩, hstop⟩ := h
    have hrest : start.rest = c :: stop.rest := hstop.rest
    show _ = Error.unexpectedChar c _ _
    rw [show placeOf base.toNat source (c :: stop.rest) = start.placeAt base from
      hrest ▸ has.placeOf_eq base]
    show Error.unexpectedChar c (start.spanTo base stop) _ = _
    rw [hstop.spanTo]
    rfl

end Start

/-- Where a source starts, the exact place and the one in words are the same. -/
theorem placeAt_start (source : List Char) (base : UInt32) :
    (Scanner.start source).placeAt base = Place.start base.toNat := by
  show (Place.start 0).shift base.toNat 0 = _
  rw [← Place.start_add, Nat.zero_add]

/-- A source that cannot be cut into pieces stops the lexer, with the same fault. -/
theorem exists_halt_of_pieces {source : List Char} {fault : Fault}
    (h : pieces true source = .error fault) (base : UInt32) :
    ∃ halt, lexFrom base (.start source) = .error halt ∧ halt.From (.start source) ∧
      halt.fault = fault := by
  have hlexed := mapError_lexFrom base (.start source)
  rw [Scanner.tokens, show pieces (Scanner.start source).lineStart (Scanner.start source).rest = _
    from h] at hlexed
  cases hlex : lexFrom base (.start source) with
  | ok ts => rw [hlex] at hlexed; cases hlexed
  | error halt =>
    rw [hlex] at hlexed
    exact ⟨halt, rfl, from_of_lexFrom hlex, Except.error.inj hlexed⟩

/-- A source that can be cut into pieces does not. -/
theorem lexFrom_of_pieces {source : List Char} {ps : List Piece} (h : pieces true source = .ok ps)
    (base : UInt32) :
    lexFrom base (.start source) =
      .ok ((ofPieces (Place.start base.toNat) [] [] ps).map word) := by
  have hlexed := mapError_lexFrom base (.start source)
  rw [Scanner.tokens, show pieces (Scanner.start source).lineStart (Scanner.start source).rest = _
    from h, placeAt_start] at hlexed
  cases hlex : lexFrom base (.start source) with
  | ok ts =>
    rw [hlex] at hlexed
    exact congrArg Except.ok (Except.ok.inj hlexed)
  | error halt => rw [hlex] at hlexed; cases hlexed

/-- **The lexer reads the tokens of a source**, or finds what is wrong with it, with positions in
words; unless a line or a column in the text that it reads does not fit into one. -/
theorem lex_eq (source : String) (base : UInt32) :
    lex source base =
      match pieces true source.toList with
      | .ok ps =>
        if (Place.start 0).fitsAll source.toList then
          .ok ((ofPieces (Place.start base.toNat) [] [] ps).map word)
        else .error .overflow
      | .error fault =>
        if (Place.start 0).fitsAll (fault.before source.toList) then
          .error (.error (fault.locate base.toNat source.toList).word)
        else .error .overflow := by
  unfold lex
  cases hpieces : pieces true source.toList with
  | ok ps => rw [lexFrom_of_pieces hpieces]
  | error fault =>
    obtain ⟨halt, hlex, hfrom, rfl⟩ := exists_halt_of_pieces hpieces base
    rw [hlex]
    dsimp only
    rw [hfrom.before_eq, hfrom.locate_eq]

theorem exists_pieces_of_lex {source : String} {base : UInt32} {ts : List Token}
    (h : lex source base = .ok ts) :
    ∃ ps, pieces true source.toList = .ok ps ∧ (Place.start 0).fitsAll source.toList = true ∧
      ts = (ofPieces (Place.start base.toNat) [] [] ps).map word := by
  rw [lex_eq] at h
  split at h
  · rename_i ps hpieces
    split at h
    · cases h
      exact ⟨ps, hpieces, ‹_›, rfl⟩
    · cases h
  · split at h <;> cases h

/-- What the lexer reads are the tokens of the source, with their positions as words. -/
theorem exists_tokenize_of_lex {source : String} {base : UInt32} {ts : List Token}
    (h : lex source base = .ok ts) :
    ∃ us, tokenize source base.toNat = .ok us ∧ ts = us.map word := by
  obtain ⟨ps, hpieces, -, rfl⟩ := exists_pieces_of_lex h
  refine ⟨_, ?_, rfl⟩
  unfold tokenize
  rw [hpieces]

/-! ### Where words are no restriction -/

end Token

/-- Ends that are words already are kept, in order. -/
theorem Span.word_eq {s : Span} (hlo : s.lo < UInt32.size) (hhi : s.hi < UInt32.size) :
    s.word = ⟨min s.lo s.hi, max s.lo s.hi⟩ := by
  have htoNat : ∀ {n : Nat}, n < UInt32.size → (UInt32.ofNat n).toNat = n :=
    UInt32.toNat_ofNat_of_lt
  unfold Span.word Span.ofWords
  split
  · rename_i hle
    rw [UInt32.le_iff_toNat_le, htoNat hlo, htoNat hhi] at hle
    rw [htoNat hlo, htoNat hhi, min_eq_left hle, max_eq_right hle]
  · rename_i hle
    rw [UInt32.le_iff_toNat_le, htoNat hlo, htoNat hhi] at hle
    rw [htoNat hlo, htoNat hhi, min_eq_right (by omega), max_eq_left (by omega)]

theorem Span.word_shift {s : Span} {n : Nat} (hlo : s.lo + n < UInt32.size)
    (hhi : s.hi + n < UInt32.size) : (s.shift n).word = s.word.shift n := by
  rw [Span.word_eq hlo hhi, Span.word_eq (by omega) (by omega)]
  simp only [Span.shift, Span.mk.injEq]
  omega

/-- A span in a source ends in it. -/
theorem Span.Within.hi_le {s : Span} {source : String} {base : Nat} (h : s.Within source base) :
    s.hi ≤ base + source.utf8ByteSize := by
  have hle := h.isValid_hi.le_utf8ByteSize
  have hlo := h.base_le_lo
  have hhi := h.lo_le_hi
  simp at hle
  omega

namespace Token

theorem Error.word_shift {e : Token.Error} {n : Nat} (m : Nat) (hlo : e.span.lo + n < UInt32.size)
    (hhi : e.span.hi + n < UInt32.size) : (e.shift n m).word = e.word.shift n m := by
  cases e with
  | unterminated what span line =>
    exact congrArg (Error.unterminated what · (line + m)) (Span.word_shift hlo hhi)
  | unexpectedChar c span line =>
    exact congrArg (Error.unexpectedChar c · (line + m)) (Span.word_shift hlo hhi)

variable {source : String} {base : UInt32} {us : List Token}

theorem span_mem_spans {t : Token} (ht : t ∈ us) : t.span ∈ spans us :=
  List.mem_flatMap.mpr ⟨t, ht, List.mem_append_right _ List.mem_cons_self⟩

theorem comment_span_mem_spans {t : Token} (ht : t ∈ us) {k : Comment} (hk : k ∈ t.leading) :
    k.span ∈ spans us :=
  List.mem_flatMap.mpr ⟨t, ht, List.mem_append_left _ (List.mem_map_of_mem hk)⟩

/-- **If a source ends below the largest word, its positions are words.** -/
theorem map_word_of_fits (h : tokenize source base.toNat = .ok us)
    (hsize : base.toNat + source.utf8ByteSize < UInt32.size) : us.map word = us := by
  have hspans : ∀ s ∈ spans us, s.word = s := by
    intro s hs
    have hwithin := within_of_mem_spans h hs
    have hle := hwithin.lo_le_hi
    have hhi := hwithin.hi_le
    rw [Span.word_eq (by omega) (by omega), min_eq_left hle, max_eq_right hle]
  calc us.map word
    _ = us.map id := List.map_congr_left fun t ht => ?_
    _ = us := List.map_id us
  have hspan := hspans t.span (span_mem_spans ht)
  have hleading : t.leading.map Comment.word = t.leading.map id :=
    List.map_congr_left fun k hk => by
      show { k with span := k.span.word } = k
      rw [hspans k.span (comment_span_mem_spans ht hk)]
  show { t with span := t.span.word, leading := t.leading.map Comment.word } = t
  rw [hspan, hleading, List.map_id]

/-- **If a source can be moved below the largest word, its words move with it.** -/
theorem map_word_shift {n m : Nat} (h : tokenize source base.toNat = .ok us)
    (hsize : base.toNat + source.utf8ByteSize + n < UInt32.size) :
    (us.map (shift n m)).map word = (us.map word).map (shift n m) := by
  have hspans : ∀ s ∈ spans us, (s.shift n).word = s.word.shift n := by
    intro s hs
    have hwithin := within_of_mem_spans h hs
    have hle := hwithin.lo_le_hi
    have hhi := hwithin.hi_le
    exact Span.word_shift (by omega) (by omega)
  rw [List.map_map, List.map_map]
  refine List.map_congr_left fun t ht => ?_
  have hspan := hspans t.span (span_mem_spans ht)
  have hleading : (t.leading.map (Comment.shift n)).map Comment.word =
      (t.leading.map Comment.word).map (Comment.shift n) := by
    rw [List.map_map, List.map_map]
    refine List.map_congr_left fun k hk => ?_
    exact congrArg (fun s => { k with span := s }) (hspans k.span (comment_span_mem_spans ht hk))
  show { t with
      span := (t.span.shift n).word, line := t.line + m
      leading := (t.leading.map (Comment.shift n)).map Comment.word : Token } = _
  rw [hspan, hleading]
  rfl

/-- **Nothing is lost in what the lexer reads**, if the source ends below the largest word: the tokens
account for every character of the source. -/
theorem lex_lossless {source : String} {base : UInt32} {ts : List Token}
    (hsize : base.toNat + source.utf8ByteSize < UInt32.size) (h : lex source base = .ok ts) :
    Lossless source base.toNat ts := by
  obtain ⟨us, htokenize, rfl⟩ := exists_tokenize_of_lex h
  rw [map_word_of_fits htokenize hsize]
  exact tokenize_lossless htokenize

/-- A directive, comments of both forms, and a literal with a literal in its hole. -/
def mixedSource : String :=
  "#if A\n\t/* \u00e9 */ x = $\"\x7bf(\"\x7d\")\x7d\u00e9\"; // end \n"

theorem lex_lossless_mixedSource :
    ∃ ts, lex mixedSource 1 = .ok ts ∧
      ts.map Token.text = ["x", "=", "$\"\x7bf(\"\x7d\")\x7d\u00e9\"", ";", ""] ∧
      Lossless mixedSource 1 ts := by
  have hrun : (lex mixedSource 1).toOption.map (List.map Token.text) =
      some ["x", "=", "$\"\x7bf(\"\x7d\")\x7d\u00e9\"", ";", ""] := by
    decide +kernel
  obtain ⟨ts, h, hrun⟩ := exists_ok_of_map hrun
  exact ⟨ts, h, hrun, lex_lossless (by decide) h⟩

/-- Behind the largest word positions start anew at zero, so the second of these two words stands
before the first one. -/
theorem lex_lossless_wrapped :
    ∃ ts, lex "ab cd" 4294967293 = .ok ts ∧
      spans ts = [⟨4294967293, 4294967295⟩, ⟨0, 2⟩, ⟨2, 2⟩] ∧
      ¬Lossless "ab cd" 4294967293 ts := by
  have hrun : (lex "ab cd" 4294967293).toOption.map spans =
      some [⟨4294967293, 4294967295⟩, ⟨0, 2⟩, ⟨2, 2⟩] := by
    decide +kernel
  obtain ⟨ts, h, hspans⟩ := exists_ok_of_map hrun
  refine ⟨ts, h, hspans, fun hlossless => ?_⟩
  have hincreasing := hlossless.increasing
  rw [hspans] at hincreasing
  exact absurd hincreasing (by decide)

end Token

end ClassSugar
