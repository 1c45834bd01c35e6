import ClassSugar.Proofs.LineEnds
import ClassSugar.Proofs.ReflowedTokens
import ClassSugar.Proofs.TokenRuns

/-!
# Carriage returns in tokens

In a paired source a carriage return stands where a line ends: between two tokens, in a comment, or
in a literal that spans lines. It is never the last character of a token or of a comment, and the
text between two tokens ends before something that is no line break. So texts, gaps and comments are
paired one by one (`Token.tame_of_tokenize`), and so is what they spell (`Token.paired_spell`).
-/

namespace ClassSugar

open ClassSugar.Text

namespace Token

open ClassSugar.Renaming

/-- Carriage returns end lines in the token, in the text before it and in the comments before it. A
word has none. -/
structure Tame (t : Token) : Prop where
  text : Paired t.text.toList
  gap : Paired t.gap.toList
  leading : ∀ k ∈ t.leading, Paired k.text.toList
  word : t.kind = .ident → Clean t.text

/-- A paired text may be cut behind what is no blank. -/
theorem paired_of_endsSolid {a b : List Char} (h : Paired (a ++ b))
    (hsolid : ∀ c, a.getLast? = some c → isBlank c = false) : Paired a := by
  refine h.of_append_left fun hlast => ?_
  exact absurd (hsolid _ hlast) (by decide)

/-- The comment that a piece is, is paired if the source is. -/
theorem paired_of_mem_commentAt {lineStart : Bool} {c : Char} {r : List Char} {kind : Piece.Kind}
    {t : Cut (c :: r)} (h : Piece.next lineStart c r = .ok (kind, t)) (hpaired : Paired (c :: r))
    {p : Place} {k : Comment} (hk : k ∈ Piece.commentAt p ⟨kind, t.read⟩) :
    Paired k.text.toList := by
  rw [← t.read_append_rest] at hpaired
  cases Piece.nextAt_of_next h with
  | blank => cases hk
  | token => cases hk
  | comment hblank hcomment =>
    have hat := Piece.commentAt_of_comment? hcomment
    generalize t.read = a at hat hk hpaired
    generalize t.rest = b at hat hpaired
    cases hat with
    | @line a b hopen hline hend =>
      obtain rfl := List.mem_singleton.mp hk
      -- The carriage return at the end of the line is trimmed off.
      obtain ⟨more, hmore⟩ := isPrefix_trimEnd (c :: a)
      rw [← hmore, List.append_assoc] at hpaired
      rw [String.toList_ofList]
      exact paired_of_endsSolid hpaired (tidy_trimEnd hline).ends
    | @block a b hopen hbody =>
      obtain rfl := List.mem_singleton.mp hk
      rw [String.toList_ofList]
      refine paired_of_endsSolid hpaired fun d hd => ?_
      rw [hbody.getLast?_comment] at hd
      exact Option.some.inj hd ▸ rfl

/-- **Tokens of a paired text are tame.** The walk has passed a gap since the last token, and with
the text ahead the gap is paired. -/
theorem tame_ofPieces {lineStart : Bool} {cs : List Char} {ps : List Piece}
    (h : pieces lineStart cs = .ok ps) {p : Place} {gap : List Char} {leading : List Comment}
    (hpaired : Paired (gap ++ cs)) (hleading : ∀ k ∈ leading, Paired k.text.toList) :
    ∀ t ∈ ofPieces p gap leading ps, t.Tame := by
  induction ps generalizing lineStart cs p gap leading with
  | nil =>
    obtain rfl : [] = cs := spell_pieces h
    refine List.forall_mem_singleton.mpr ⟨.nil, ?_, hleading, nofun⟩
    rw [String.toList_ofList]
    exact hpaired.of_append_left fun _ => nofun
  | cons piece ps ih =>
    obtain ⟨c, r, t, rfl, hnext, hread, hrest⟩ := exists_next_of_pieces h
    obtain ⟨kind, text⟩ := piece
    obtain rfl : t.read = text := hread
    have hcs := t.read_append_rest
    rcases Piece.cases_isToken ⟨kind, t.read⟩ with ⟨tokenKind, hkind⟩ | hkind
    · obtain rfl : kind = .token tokenKind := hkind
      obtain ⟨hblank, htoken⟩ := Piece.tokenAt_of_next hnext
      have hahead : Paired (t.read ++ t.rest) := hcs.symm ▸ hpaired.of_append_right
      obtain ⟨d, hlast, hd⟩ := htoken.endsSolid
      -- A token ends with a character that is no blank, so what it ends with is no carriage return.
      have hread : Paired t.read :=
        paired_of_endsSolid hahead fun e he => Option.some.inj (hlast.symm.trans he) ▸ hd
      -- No blank follows the gap, so it does not end in the middle of a pair.
      have hgap : Paired gap := by
        refine hpaired.of_append_left fun _ hhead => ?_
        rw [Option.some.inj hhead] at hblank
        exact absurd hblank (by decide)
      rw [ofPieces_of_token _ _ _ _ rfl]
      refine List.forall_mem_cons.mpr ⟨⟨?_, ?_, hleading, fun hident => ?_⟩, ?_⟩
      · exact (String.toList_ofList (l := t.read)).symm ▸ hread
      · exact (String.toList_ofList (l := gap)).symm ▸ hgap
      · obtain rfl : tokenKind = .ident := hident
        cases htoken with
        | word _ _ _ hname =>
          intro hmem
          change _ ∈ (String.ofList _).toList at hmem
          rw [String.toList_ofList] at hmem
          exact absurd ((IsName.of_run hname).isWordPart _ hmem) (by decide)
      · exact ih hrest hahead.of_append_right nofun
    · -- A piece between tokens joins the gap, and its comments those before the next token.
      rw [ofPieces_of_not_token _ _ _ _ hkind]
      refine ih hrest ?_ (List.forall_mem_append.mpr ⟨hleading, fun k hk => ?_⟩)
      · rwa [List.append_assoc, hcs]
      · exact paired_of_mem_commentAt hnext hpaired.of_append_right hk

/-- **A paired source has tame tokens.** -/
theorem tame_of_tokenize {source : String} {base : Nat} {ts : List Token}
    (hpaired : Paired source.toList) (h : tokenize source base = .ok ts) : ∀ t ∈ ts, t.Tame := by
  obtain ⟨ps, hpieces, rfl⟩ := exists_pieces_of_tokenize h
  exact tame_ofPieces hpieces hpaired nofun

/-! ### Runs of tokens -/

theorem paired_spell {ts : List Token} (h : ∀ t ∈ ts, t.Tame) : Paired (spell ts).toList := by
  cases ts with
  | nil => exact .nil
  | cons t ts =>
    obtain ⟨ht, hts⟩ := List.forall_mem_cons.mp h
    rw [toList_spell]
    refine ht.text.append ?_
    clear h ht
    induction ts with
    | nil => exact .nil
    | cons u ts ih =>
      obtain ⟨hu, hts⟩ := List.forall_mem_cons.mp hts
      exact (hu.gap.append hu.text).append (ih hts)

theorem paired_joinAfter (t : Token) {ts : List Token} (h : ∀ u ∈ ts, u.Tame) :
    Paired (joinAfter t ts).toList := by
  induction ts generalizing t with
  | nil => exact .nil
  | cons u ts ih =>
    obtain ⟨hu, hts⟩ := List.forall_mem_cons.mp h
    refine Paired.toList_append (Paired.toList_append ?_ hu.text) (ih u hts)
    split
    · exact .of_notMem (by decide)
    · exact .nil

theorem paired_join {ts : List Token} (h : ∀ t ∈ ts, t.Tame) : Paired (join ts).toList := by
  cases ts with
  | nil => exact .nil
  | cons t ts =>
    obtain ⟨ht, hts⟩ := List.forall_mem_cons.mp h
    exact ht.text.toList_append (paired_joinAfter t hts)

end Token

end ClassSugar
