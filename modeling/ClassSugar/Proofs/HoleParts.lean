import ClassSugar.Proofs.RecutPieces

/-!
# The parts of an interpolated literal

The scanner of an interpolated literal goes through its text and its holes and says only where the
literal ends. Here the way is cut into parts: in the text characters and escapes, in a hole the
tokens of the code, braces and whatever else stands there. `ReadsPart` is one step of the scanner,
`ReadsParts` a run of such steps from the start of the literal.

A literal that is accepted never gets stuck: another part is read until only the closing quote is
left (`Accepted.exists_part`, `Accepted.exists_parts`). So every name in a hole is a part that some
run reads.
-/

namespace ClassSugar.Token

open ClassSugar.Text ClassSugar.Renaming

/-! ### Parts -/

/-- What a part of an interpolated literal is. -/
inductive Part.Kind where
  /-- A character of the text or of the code, or a doubled quote or brace of the text. -/
  | plain
  /-- A backslash and the character after it. -/
  | escape
  /-- A token of the code in a hole. -/
  | token (kind : Token.Kind)
  deriving DecidableEq

/-- A part of an interpolated literal. -/
structure Part where
  kind : Part.Kind
  text : List Char
  deriving DecidableEq

/-- What is being read. -/
inductive Mode where
  /-- The text of the literal. -/
  | text
  /-- The code of a hole, with `depth` braces open in it. -/
  | hole (depth : Nat)

/-- A part is read, and `r` follows it. In a hole the braces are counted outside of its tokens. -/
inductive ReadsPart (verbatim : Bool) : Mode → Part → List Char → Mode → Prop where
  | plain {c : Char} {r : List Char} (hquote : c ≠ '"')
      (hescape : verbatim = false → c ≠ '\n' ∧ c ≠ '\\') (hbrace : c ≠ '{') :
      ReadsPart verbatim .text ⟨.plain, [c]⟩ r .text
  | escape (d : Char) (r : List Char) (hverbatim : verbatim = false) :
      ReadsPart verbatim .text ⟨.escape, ['\\', d]⟩ r .text
  | quotes (r : List Char) (hverbatim : verbatim = true) :
      ReadsPart verbatim .text ⟨.plain, ['"', '"']⟩ r .text
  | braces (r : List Char) : ReadsPart verbatim .text ⟨.plain, ['{', '{']⟩ r .text
  | enter {r : List Char} (hsingle : r.head? ≠ some '{') :
      ReadsPart verbatim .text ⟨.plain, ['{']⟩ r (.hole 0)
  | leave (r : List Char) : ReadsPart verbatim (.hole 0) ⟨.plain, ['}']⟩ r .text
  | up (depth : Nat) (r : List Char) :
      ReadsPart verbatim (.hole depth) ⟨.plain, ['{']⟩ r (.hole (depth + 1))
  | down (depth : Nat) (r : List Char) :
      ReadsPart verbatim (.hole (depth + 1)) ⟨.plain, ['}']⟩ r (.hole depth)
  | token (depth : Nat) {c : Char} {a r : List Char} {kind : Token.Kind} {t : Cut (c :: (a ++ r))}
      (htoken : Piece.TokenAt c (a ++ r) kind t) (hkind : kind ≠ .punct) (hread : t.read = c :: a) :
      ReadsPart verbatim (.hole depth) ⟨.token kind, c :: a⟩ r (.hole depth)
  | other (depth : Nat) {c : Char} {r : List Char} (ho : Opening.of? (c :: r) = none)
      (hnumber : Piece.startsNumber c r = false) (hname : Piece.startsName c r = false)
      (hc : c ≠ '{' ∧ c ≠ '}' ∧ c ≠ '\'') :
      ReadsPart verbatim (.hole depth) ⟨.plain, [c]⟩ r (.hole depth)

/-- The parts are read off the start of a literal, and `r` follows them. -/
inductive ReadsParts (verbatim : Bool) (body : List Char) : List Part → Mode → List Char → Prop where
  | start : ReadsParts verbatim body [] .text body
  | next {parts : List Part} {part : Part} {mode mode' : Mode} {r : List Char}
      (h : ReadsParts verbatim body parts mode (part.text ++ r))
      (hpart : ReadsPart verbatim mode part r mode') :
      ReadsParts verbatim body (parts ++ [part]) mode' r

variable {body r : List Char} {parts : List Part} {mode : Mode}

theorem ReadsParts.append_eq {verbatim : Bool} (h : ReadsParts verbatim body parts mode r) :
    parts.flatMap Part.text ++ r = body := by
  induction h with
  | start => rfl
  | next _ _ ih => rw [← ih, List.flatMap_append, List.flatMap_singleton, List.append_assoc]

/-- A part that was read last was read where the earlier ones end. -/
theorem ReadsParts.exists_of_concat {verbatim : Bool} {part : Part} {mode' : Mode}
    (h : ReadsParts verbatim body (parts ++ [part]) mode' r) :
    ∃ mode, ReadsParts verbatim body parts mode (part.text ++ r) ∧
      ReadsPart verbatim mode part r mode' := by
  generalize hall : parts ++ [part] = all at h
  cases h with
  | start => exact absurd hall (List.append_ne_nil_of_right_ne_nil _ (List.cons_ne_nil _ _))
  | next h hpart =>
    obtain ⟨rfl, hlast⟩ := List.append_inj' hall rfl
    obtain rfl := List.cons.inj hlast |>.1
    exact ⟨_, h, hpart⟩

/-! ### Accepted literals -/

/-- The literal is read to its end from here. -/
def Accepted (start : List Char) (verbatim : Bool) : Mode → List Char → Prop
  | .text, cs => Reads (quotedRest start verbatim true cs) cs []
  | .hole depth, cs => ∃ a b, Reads (holeRest start depth cs) a b ∧
      Reads (quotedRest start verbatim true b) b []

/-- Characters of words and points are passed one by one in a hole. -/
theorem exists_reads_holeRest {start front a b : List Char} {depth : Nat}
    (hfront : ∀ c ∈ front, isWordChar c = true ∨ c = '.')
    (h : Reads (holeRest start depth (front ++ r)) a b) :
    ∃ a', Reads (holeRest start depth r) a' b := by
  induction front generalizing a with
  | nil => exact ⟨a, h⟩
  | cons c front ih =>
    obtain ⟨hc, hfront⟩ := List.forall_mem_cons.mp hfront
    have hplain : isMark c = false ∧ c ≠ '"' ∧ c ≠ '{' ∧ c ≠ '}' ∧ c ≠ '\'' := by
      rcases hc with hc | rfl
      · refine ⟨isMark_of_isWordChar hc, ?_, ?_, ?_, ?_⟩ <;>
          · rintro rfl
            exact absurd hc (by decide)
      · decide
    rw [List.cons_append, holeRest_plain start depth (of?_eq_none_of_head hplain.1 hplain.2.1)
      hplain.2.2] at h
    obtain ⟨a', -, h'⟩ := (Reads.cons_iff c).mp h
    exact ih hfront h'

theorem ReadsPart.text_ne_nil {verbatim : Bool} {mode' : Mode} {part : Part}
    (h : ReadsPart verbatim mode part r mode') : part.text ≠ [] := by
  cases h <;> exact List.cons_ne_nil _ _

theorem readsPart_of_tokenAt {verbatim : Bool} (depth : Nat) {c : Char} {kind : Token.Kind}
    {t : Cut (c :: r)} (htoken : Piece.TokenAt c r kind t) (hkind : kind ≠ .punct) :
    ReadsPart verbatim (.hole depth) ⟨.token kind, t.read⟩ t.rest (.hole depth) := by
  obtain ⟨a, hread, hr⟩ := exists_read_eq_cons t
  generalize t.rest = b at hr ⊢
  subst hr
  rw [hread]
  exact .token depth htoken hkind hread

variable {start cs : List Char} {verbatim : Bool}

/-- In the text of an accepted literal another part follows, or it is closed. -/
theorem Accepted.exists_part_text (h : Accepted start verbatim .text cs) (hopen : cs ≠ ['"']) :
    ∃ part r mode', cs = part.text ++ r ∧ ReadsPart verbatim .text part r mode' ∧
      Accepted start verbatim mode' r := by
  change Reads (quotedRest start verbatim true cs) cs [] at h
  cases quotedStep_iff.mp h with
  | close => exact absurd rfl hopen
  | @pair c d r _ hpair hr =>
    rcases hpair with ⟨rfl, hv⟩ | ⟨rfl, rfl, hv⟩ | ⟨rfl, rfl, -⟩
    · exact ⟨_, r, _, rfl, .escape d r hv, hr⟩
    · exact ⟨_, r, _, rfl, .quotes r hv, hr⟩
    · exact ⟨_, r, _, rfl, .braces r, hr⟩
  | @hole r a₁ a₂ _ hr hhole hrest =>
    refine ⟨_, _, _, rfl, .enter fun hhead => ?_, a₁, a₂ ++ [], hhole, ?_⟩
    · obtain ⟨r', hr'⟩ := List.head?_eq_some_iff.mp hhead
      exact hr r' hr'
    · rw [List.append_nil] at hrest ⊢
      exact hrest
  | @plain c r _ hquote hescape hbrace hr =>
    exact ⟨_, r, _, rfl, .plain hquote hescape (hbrace rfl), hr⟩

/-- In a hole of an accepted literal another part follows. -/
theorem Accepted.exists_part_hole {depth : Nat} (h : Accepted start verbatim (.hole depth) cs) :
    ∃ part r mode', cs = part.text ++ r ∧ ReadsPart verbatim (.hole depth) part r mode' ∧
      Accepted start verbatim mode' r := by
  obtain ⟨a, b, hhole, hb⟩ := h
  obtain ⟨c, r, rfl⟩ : ∃ c r, cs = c :: r := by
    cases cs with
    | nil =>
      rw [holeRest_nil] at hhole
      exact ((Reads.error_iff _).mp hhole).elim
    | cons c r => exact ⟨c, r, rfl⟩
  -- A token is read whole, and the hole goes on behind it.
  have htoken : ∀ {kind : Token.Kind} {t : Cut (c :: r)}, Piece.TokenAt c r kind t →
      kind ≠ .punct → (∃ a', Reads (holeRest start depth t.rest) a' b) →
      ∃ part r' mode', c :: r = part.text ++ r' ∧
        ReadsPart verbatim (.hole depth) part r' mode' ∧ Accepted start verbatim mode' r' := by
    rintro kind t ht hkind ⟨a', ha'⟩
    exact ⟨_, _, _, t.read_append_rest.symm, readsPart_of_tokenAt depth ht hkind, a', b, ha', hb⟩
  cases ho : Opening.of? (c :: r) with
  | some o =>
    rw [holeRest_literal start depth ho] at hhole
    obtain ⟨a₁, a₂, rfl, ⟨t, hclose, -, hrest⟩, h₂⟩ := Reads.then_iff.mp hhole
    exact htoken (.string ho hclose) (by nofun) ⟨a₂, hrest ▸ h₂⟩
  | none =>
    by_cases hup : c = '{'
    · subst hup
      rw [holeRest_open] at hhole
      obtain ⟨a', -, hr⟩ := (Reads.cons_iff _).mp hhole
      exact ⟨_, r, _, rfl, .up depth r, a', b, hr, hb⟩
    by_cases hdown : c = '}'
    · subst hdown
      cases depth with
      | zero =>
        rw [holeRest_end] at hhole
        obtain ⟨-, rfl⟩ := (Reads.ok_iff _).mp hhole
        exact ⟨_, r, _, rfl, .leave r, hb⟩
      | succ depth =>
        rw [holeRest_shut] at hhole
        obtain ⟨a', -, hr⟩ := (Reads.cons_iff _).mp hhole
        exact ⟨_, r, _, rfl, .down depth r, a', b, hr, hb⟩
    by_cases hquote : c = '\''
    · subst hquote
      rw [holeRest_char] at hhole
      obtain ⟨a₁, a₂, -, ⟨t, hchar, -, hrest⟩, h₂⟩ := (Reads.cons_then_iff _).mp hhole
      exact htoken (.char rfl hchar) (by nofun) ⟨a₂, hrest ▸ h₂⟩
    -- Numbers and names are tokens too, though the scanner passes their characters one by one.
    by_cases hnumber : Piece.startsNumber c r = true
    · refine htoken (.number ho hquote hnumber) (by nofun) ?_
      rw [← (numberRest c r).read_append_rest] at hhole
      exact exists_reads_holeRest (forall_mem_numberRest_of_startsNumber hnumber) hhole
    have hnumber := Bool.eq_false_iff.mpr hnumber
    rw [holeRest_plain start depth ho ⟨hup, hdown, hquote⟩] at hhole
    obtain ⟨a', -, hr⟩ := (Reads.cons_iff _).mp hhole
    by_cases hname : Piece.startsName c r = true
    · refine htoken (.word ho hquote hnumber hname) (by nofun) ?_
      rw [← List.takeWhile_append_dropWhile (p := isWordChar) (l := r)] at hr
      exact exists_reads_holeRest (fun d hd => .inl (List.mem_takeWhile_imp hd)) hr
    · have hname := Bool.eq_false_iff.mpr hname
      exact ⟨_, r, _, rfl, .other depth ho hnumber hname ⟨hup, hdown, hquote⟩, a', b, hr, hb⟩

/-- **An accepted literal is read in parts**, up to the quote that closes it. -/
theorem Accepted.exists_parts (h : Accepted start verbatim mode cs)
    (hparts : ReadsParts verbatim body parts mode cs) :
    ∃ parts', ReadsParts verbatim body parts' .text ['"'] := by
  induction hn : cs.length using Nat.strong_induction_on generalizing cs parts mode with
  | _ n ih =>
    -- Behind another part less is left to read.
    have hgo : ∀ {part : Part} {r : List Char} {mode' : Mode}, cs = part.text ++ r →
        ReadsPart verbatim mode part r mode' → Accepted start verbatim mode' r →
        ∃ parts', ReadsParts verbatim body parts' .text ['"'] := by
      rintro part r mode' rfl hpart hr
      refine ih r.length ?_ hr (.next hparts hpart) rfl
      rw [← hn, List.length_append]
      have := List.length_pos_iff.mpr hpart.text_ne_nil
      omega
    cases mode with
    | text =>
      by_cases hclosed : cs = ['"']
      · exact ⟨parts, hclosed ▸ hparts⟩
      · obtain ⟨part, r, mode', hcs, hpart, hr⟩ := h.exists_part_text hclosed
        exact hgo hcs hpart hr
    | hole depth =>
      obtain ⟨part, r, mode', hcs, hpart, hr⟩ := h.exists_part_hole
      exact hgo hcs hpart hr

/-! ### Tokens -/

/-- A token that does not end the source was found where its text starts. -/
theorem exists_tokenAt_of_mem {lineStart : Bool} {ps : List Piece} {p : Place} {gap : List Char}
    {leading : List Comment} {t : Token} (h : pieces lineStart cs = .ok ps)
    (ht : t ∈ ofPieces p gap leading ps) (hend : t.isEof = false) :
    ∃ c r, ∃ u : Cut (c :: r), Piece.TokenAt c r t.kind u ∧ t.text = String.ofList u.read := by
  induction ps generalizing lineStart cs p gap leading with
  | nil =>
    rw [ofPieces, List.mem_singleton] at ht
    rw [ht] at hend
    cases hend
  | cons piece ps ih =>
    obtain ⟨c, r, u, -, hnext, hread, hrest⟩ := exists_next_of_pieces h
    rcases piece.cases_isToken with ⟨kind, hkind⟩ | hpassed
    · rw [ofPieces_of_token _ _ _ _ hkind] at ht
      rcases List.mem_cons.mp ht with rfl | ht
      · rw [hkind] at hnext
        exact ⟨c, r, u, (Piece.tokenAt_of_next hnext).2, congrArg String.ofList hread.symm⟩
      · exact ih hrest ht
    · rw [ofPieces_of_not_token _ _ _ _ hpassed] at ht
      exact ih hrest ht

/-- The token is an interpolated literal that is not raw: marks, a quote and the rest. -/
structure Interpolated (t : Token) (marks body : List Char) : Prop where
  isStr : t.kind = .str
  spell : t.text = String.ofList (marks ++ '"' :: body)
  areMarks : ∀ c ∈ marks, isMark c = true
  dollar : '$' ∈ marks
  notRaw : ¬['"', '"'] <+: body

theorem quotesBefore_lt_three (h : ¬['"', '"'] <+: body) :
    quotesBefore body < 3 := by
  refine Nat.lt_of_not_le fun hle => h (List.IsPrefix.trans ?_ (List.takeWhile_prefix (· == '"')))
  unfold quotesBefore at hle
  obtain ⟨k, hk⟩ : ∃ k, (body.takeWhile (· == '"')).length = k + 2 :=
    Nat.exists_eq_add_of_le' (by omega)
  rw [takeWhile_quote_eq, hk]
  exact ⟨_, rfl⟩

/-- An interpolated token of a source is an accepted literal. -/
theorem Interpolated.accepted {t : Token} {marks : List Char} (h : Interpolated t marks body)
    {source : String} {base : Nat} {ts : List Token} (hts : tokenize source base = .ok ts)
    (ht : t ∈ ts) :
    Accepted (marks ++ '"' :: body) (marks.contains '@') .text body := by
  obtain ⟨ps, hps, rfl⟩ := exists_pieces_of_tokenize hts
  obtain ⟨c, r, u, htoken, htext⟩ :=
    exists_tokenAt_of_mem hps ht (by rw [isEof, h.isStr]; rfl)
  have hread : u.read = marks ++ '"' :: body := by
    rw [h.spell] at htext
    exact (String.ofList_injective htext).symm
  -- The token is read as a string, and with nothing behind it as well.
  have hstring : ReadsString (marks ++ '"' :: body) (marks ++ '"' :: body) [] := by
    rw [h.isStr] at htoken
    cases htoken with
    | string ho hclose =>
      have halone := (literals_local (c :: r)).string _ _ [] ⟨_, ho, u, hclose, hread, rfl⟩
        (.of_isPrefix List.nil_prefix)
      rwa [List.append_nil] at halone
  obtain ⟨marks', body', hopens⟩ : ∃ marks' body', Opens (marks ++ '"' :: body) marks' body' := by
    obtain ⟨o, ho, -⟩ := hstring
    exact Opens.of_of? ho
  have hquote : ∀ c, ('"' :: body).head? = some c → isMark c = false := by
    rintro _ ⟨⟩
    rfl
  -- The marks and the body are those that the reader finds.
  obtain rfl : marks = marks' := by
    rw [← hopens.takeWhile_isMark, takeWhile_append_of_fails h.areMarks hquote]
  obtain rfl : body = body' := (List.cons.inj (List.append_cancel_left hopens.spell)).2
  have hafter := hopens.readsString_iff.mp hstring
  -- There are fewer than three quotes and a dollar, so it is no raw string and has holes.
  rw [ReadsAfter, if_neg (Nat.not_le.mpr (quotesBefore_lt_three h.notRaw)),
    List.contains_iff_mem.mpr h.dollar] at hafter
  obtain ⟨body', hbody, hreads⟩ := hafter
  obtain rfl : body = body' := (List.cons.inj (List.append_cancel_left hbody)).2
  exact hreads

end ClassSugar.Token
