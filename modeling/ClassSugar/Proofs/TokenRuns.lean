import ClassSugar.Grammar.Fragment
import ClassSugar.Proofs.LosslessTokens
import ClassSugar.Proofs.PieceLocality

/-!
# Runs of tokens

Code is kept as a run of tokens spelled with the gaps between them (`Token.spell`). Two things make
this safe:

* `textIn_spanOf`: what a run spells is the text of the source at its span, so nothing is added or
  left out between its tokens;
* `slice_keeps_tokens`: read on its own, that text has the tokens of the run again, with the
  comments between them, whatever stood around it in the source.

For the second the tokens of a run are traced back to the pieces they were made of
(`exists_split_ofPieces`, `exists_first_ofPieces`), and pieces are cut alike on their own.
-/

namespace ClassSugar

open ClassSugar.Text

namespace Token

/-! ### The text of a run -/

section Text

variable {source : String} {base : Nat}

/-- The gap of the second token is all that stands between the two. -/
def Abuts (source : String) (base : Nat) (t u : Token) : Prop :=
  Span.Covers ⟨t.span.hi, u.span.lo⟩ source base u.gap.toList

theorem Abuts.of_gap {t u : Token} {gap : List Char} (hgap : u.gap = String.ofList gap)
    (h : Span.Covers ⟨t.span.hi, u.span.lo⟩ source base gap) : Abuts source base t u := by
  rwa [Abuts, hgap, String.toList_ofList]

/-- **Tokens follow each other gap by gap.** The state of the walk is what was passed up to the end
of the last token, and the gap since then. -/
theorem chain_ofPieces {ps : List Piece} {before gap here : List Char} {a : Token}
    (hhere : before ++ gap = here) (hsource : source.toList = here ++ ps.flatMap Piece.text)
    (hend : a.span.hi = ((Place.start base).advance before).offset) (leading : List Comment) :
    (a :: ofPieces ((Place.start base).advance here) gap leading ps).IsChain
        (Abuts source base) ∧
      ∀ t ∈ ofPieces ((Place.start base).advance here) gap leading ps,
        t.span.Covers source base t.text.toList := by
  induction ps generalizing a before gap here leading with
  | nil =>
    have hlast : Span.Covers ⟨_, _⟩ source base [] :=
      .between (List.append_nil here) hsource (s := ⟨0, _⟩) rfl
    exact ⟨List.isChain_cons_cons.mpr ⟨.of_gap rfl (.between hhere hsource hend),
      List.isChain_singleton _⟩, List.forall_mem_singleton.mpr hlast⟩
  | cons piece rest ih =>
    have hnext : source.toList = here ++ piece.text ++ rest.flatMap Piece.text :=
      hsource.trans (List.append_assoc _ _ _).symm
    rcases piece.cases_isToken with ⟨kind, hkind⟩ | hpassed
    · -- A token, after which no gap has been passed yet.
      rw [ofPieces_of_token _ _ _ _ hkind, ← Place.advance_append]
      have hhi : (piece.tokenAt ((Place.start base).advance here) gap leading kind).span.hi =
          ((Place.start base).advance (here ++ piece.text)).offset := by
        rw [Place.advance_append]
        rfl
      obtain ⟨hchain, hcovers⟩ := ih (List.append_nil _) hnext hhi []
      refine ⟨List.isChain_cons_cons.mpr ⟨.of_gap rfl (.between hhere hsource hend), hchain⟩,
        List.forall_mem_cons.mpr ⟨?_, hcovers⟩⟩
      change Span.Covers (piece.spanAt _) source base (String.ofList piece.text).toList
      rw [String.toList_ofList]
      exact Piece.covers_spanAt hsource
    · -- The gap grows.
      rw [ofPieces_of_not_token _ _ _ _ hpassed, ← Place.advance_append]
      exact ih (by rw [← List.append_assoc, hhere]) hnext hend _

/-- The tokens of a source lie gap by gap, each over its text. -/
theorem chain_tokenize {ts : List Token} (h : tokenize source base = .ok ts) :
    ts.IsChain (Abuts source base) ∧ ∀ t ∈ ts, t.span.Covers source base t.text.toList := by
  obtain ⟨ps, hpieces, rfl⟩ := exists_pieces_of_tokenize h
  -- Any token that ends where the source starts will do.
  obtain ⟨hchain, hcovers⟩ := chain_ofPieces (a := { (default : Token) with span := ⟨base, base⟩ })
    (List.append_nil []) (spell_pieces hpieces).symm rfl []
  exact ⟨(List.isChain_cons.mp hchain).2, hcovers⟩

/-- A span that ends with a token grows over the tokens that follow. -/
theorem covers_append_gaps {s : Span} {text : List Char} {t : Token} {ts : List Token}
    (hs : s.Covers source base text) (hmeet : s.hi = t.span.hi)
    (hchain : (t :: ts).IsChain (Abuts source base))
    (hcovers : ∀ u ∈ ts, u.span.Covers source base u.text.toList) :
    Span.Covers ⟨s.lo, (ts.getLast?.getD t).span.hi⟩ source base
      (text ++ ts.flatMap fun u => u.gap.toList ++ u.text.toList) := by
  induction ts generalizing s text t with
  | nil =>
    rw [List.flatMap_nil, List.append_nil]
    change Span.Covers ⟨s.lo, t.span.hi⟩ source base text
    rw [← hmeet]
    exact hs
  | cons u ts ih =>
    obtain ⟨hgap, hchain⟩ := List.isChain_cons_cons.mp hchain
    obtain ⟨hu, hcovers⟩ := List.forall_mem_cons.mp hcovers
    have hgrown := (hs.join hgap hmeet).join hu rfl
    have hall := ih hgrown rfl hchain hcovers
    rw [List.getLast?_cons, Option.getD_some, List.flatMap_cons]
    simpa only [List.append_assoc] using hall

theorem toList_spell (t : Token) (ts : List Token) :
    (spell (t :: ts)).toList =
      t.text.toList ++ ts.flatMap fun u => u.gap.toList ++ u.text.toList := by
  rw [spell, String.toList_append, String.toList_join, List.flatMap_map]
  simp only [String.toList_append]

/-- A run covers what it spells. -/
theorem covers_spanOf {ts run : List Token} (h : tokenize source base = .ok ts)
    (hrun : run <:+: ts) (hne : run ≠ []) :
    (spanOf run).Covers source base (spell run).toList := by
  obtain ⟨hchain, hcovers⟩ := chain_tokenize h
  obtain ⟨t, rest, rfl⟩ := List.exists_cons_of_ne_nil hne
  have hchain' : (t :: rest).IsChain (Abuts source base) := by
    obtain ⟨front, back, rfl⟩ := hrun
    exact (List.isChain_append.mp (List.isChain_append.mp hchain).1).2.1
  have hcovers' : ∀ u ∈ t :: rest, u.span.Covers source base u.text.toList :=
    fun u hu => hcovers u (hrun.mem hu)
  obtain ⟨ht, hrest⟩ := List.forall_mem_cons.mp hcovers'
  rw [toList_spell, spanOf, List.head?_cons, List.getLast?_cons]
  exact covers_append_gaps ht rfl hchain' hrest

/-- **A run spells the text of the source at its span.** -/
theorem textIn_spanOf {ts run : List Token} (h : tokenize source base = .ok ts)
    (hrun : run <:+: ts) (hne : run ≠ []) : (spanOf run).textIn source base = spell run := by
  rw [(covers_spanOf h hrun hne).textIn_eq, String.ofList_toList]

end Text

/-! ### The pieces of a run -/

/-- Gaps and texts of the tokens spell the pieces. -/
theorem flatMap_ofPieces (p : Place) (gap : List Char) (leading : List Comment) (ps : List Piece) :
    ((ofPieces p gap leading ps).flatMap fun u => u.gap.toList ++ u.text.toList) =
      gap ++ ps.flatMap Piece.text := by
  induction ps generalizing p gap leading with
  | nil => simp [ofPieces]
  | cons piece rest ih =>
    rcases piece.cases_isToken with ⟨kind, hkind⟩ | hpassed
    · rw [ofPieces_of_token _ _ _ _ hkind, List.flatMap_cons, ih, List.flatMap_cons]
      simp [Piece.tokenAt]
    · rw [ofPieces_of_not_token _ _ _ _ hpassed, ih, List.flatMap_cons, List.append_assoc]

/-- The first tokens of a sequence are the tokens of its first pieces, and the other tokens are
those of the other pieces. -/
theorem exists_split_ofPieces {p : Place} {gap : List Char} {leading : List Comment}
    {ps : List Piece} {run after : List Token} (h : ofPieces p gap leading ps = run ++ after)
    (hrun : ∀ t ∈ run, t.isEof = false) (hne : run ≠ []) :
    ∃ front rest, ps = front ++ rest ∧
      ofPieces p gap leading front =
        run ++ ofPieces (p.advance (front.flatMap Piece.text)) [] [] [] ∧
      after = ofPieces (p.advance (front.flatMap Piece.text)) [] [] rest := by
  induction ps generalizing p gap leading run with
  | nil =>
    -- The end of the source is the only token.
    obtain ⟨t, run, rfl⟩ := List.exists_cons_of_ne_nil hne
    obtain ⟨rfl, -⟩ := List.cons.inj h
    exact absurd (hrun _ List.mem_cons_self) (by simp [isEof])
  | cons piece rest ih =>
    rcases piece.cases_isToken with ⟨kind, hkind⟩ | hpassed
    · rw [ofPieces_of_token _ _ _ _ hkind] at h
      obtain ⟨t, run, rfl⟩ := List.exists_cons_of_ne_nil hne
      obtain ⟨rfl, htail⟩ := List.cons.inj h
      by_cases hlast : run = []
      · subst hlast
        refine ⟨[piece], rest, rfl, ?_, ?_⟩
        · rw [ofPieces_of_token _ _ _ _ hkind, List.flatMap_singleton]
          rfl
        · rw [List.flatMap_singleton]
          exact htail.symm
      · obtain ⟨front, back, rfl, hfront, hback⟩ := ih htail (List.forall_mem_cons.mp hrun).2 hlast
        refine ⟨piece :: front, back, rfl, ?_, ?_⟩
        · rw [ofPieces_of_token _ _ _ _ hkind, hfront, List.flatMap_cons, Place.advance_append]
          rfl
        · rw [List.flatMap_cons, Place.advance_append]
          exact hback
    · rw [ofPieces_of_not_token _ _ _ _ hpassed] at h
      obtain ⟨front, back, rfl, hfront, hback⟩ := ih h hrun hne
      refine ⟨piece :: front, back, rfl, ?_, ?_⟩
      · rw [ofPieces_of_not_token _ _ _ _ hpassed, hfront, List.flatMap_cons, Place.advance_append]
      · rw [List.flatMap_cons, Place.advance_append]
        exact hback

/-- The first token is made of a piece that stands behind blanks and comments only. -/
theorem exists_first_ofPieces {p : Place} {gap : List Char} {leading : List Comment}
    {ps : List Piece} {t : Token} {ts : List Token} (h : ofPieces p gap leading ps = t :: ts)
    (ht : t.isEof = false) :
    ∃ passed piece rest q, ps = passed ++ piece :: rest ∧ piece.kind = .token t.kind ∧
      t.text = String.ofList piece.text ∧ ts = ofPieces q [] [] rest := by
  induction ps generalizing p gap leading with
  | nil =>
    obtain ⟨rfl, -⟩ := List.cons.inj h
    cases ht
  | cons piece rest ih =>
    rcases piece.cases_isToken with ⟨kind, hkind⟩ | hpassed
    · rw [ofPieces_of_token _ _ _ _ hkind] at h
      obtain ⟨rfl, rfl⟩ := List.cons.inj h
      exact ⟨[], piece, rest, _, rfl, hkind, rfl, rfl⟩
    · rw [ofPieces_of_not_token _ _ _ _ hpassed] at h
      obtain ⟨passed, found, back, q, rfl, hfound⟩ := ih h
      exact ⟨piece :: passed, found, back, q, rfl, hfound⟩

/-! ### Runs read on their own -/

/-- What a token says, wherever it stands: its kind, its text, and the comments before it. -/
def content (t : Token) : Token.Kind × String × List String :=
  (t.kind, t.text, t.leading.map Comment.text)

theorem Piece.map_text_commentAt (piece : Piece) (p q : Place) :
    (piece.commentAt p).map Comment.text = (piece.commentAt q).map Comment.text := by
  unfold Piece.commentAt
  cases piece.kind <;> rfl

/-- What the tokens say does not depend on where the pieces stand. -/
theorem map_content_ofPieces (p q : Place) (gap gap' : List Char) {leading leading' : List Comment}
    (hleading : leading.map Comment.text = leading'.map Comment.text) (ps : List Piece) :
    (ofPieces p gap leading ps).map content = (ofPieces q gap' leading' ps).map content := by
  induction ps generalizing p q gap gap' leading leading' with
  | nil => simp [ofPieces, content, hleading]
  | cons piece rest ih =>
    rcases piece.cases_isToken with ⟨kind, hkind⟩ | hpassed
    · rw [ofPieces_of_token _ _ _ _ hkind, ofPieces_of_token _ _ _ _ hkind, List.map_cons,
        List.map_cons, ih _ (q.advance piece.text) [] [] rfl]
      simp [content, Piece.tokenAt, hleading]
    · rw [ofPieces_of_not_token _ _ _ _ hpassed, ofPieces_of_not_token _ _ _ _ hpassed]
      apply ih
      rw [List.map_append, List.map_append, hleading, piece.map_text_commentAt p q]

/-- Tokens before others do not end the source. -/
theorem isEof_eq_false_of_mem_left {source : String} {base : Nat} {front back : List Token}
    (h : tokenize source base = .ok (front ++ back)) (hback : back ≠ []) :
    ∀ t ∈ front, t.isEof = false := by
  obtain ⟨init, last, hinit, hno, -⟩ := exists_eof_of_tokenize h
  have hdrop : front ++ back.dropLast = init := by
    rw [← List.dropLast_append_of_ne_nil hback, hinit, List.dropLast_concat]
  intro t ht
  exact hno t (hdrop ▸ List.mem_append_left _ ht)

/-- The pieces of a run of tokens: their tokens, read on their own, say what the run says, but for
the comments before its first token. -/
theorem exists_pieces_of_run {source : String} {base : Nat} {before run after : List Token}
    (h : tokenize source base = .ok (before ++ run ++ after)) (hne : run ≠ [])
    (hrun : ∀ t ∈ run, t.isEof = false) :
    ∃ ps, pieces true (ps.flatMap Piece.text) = .ok ps ∧
      ps.flatMap Piece.text = (spell run).toList ∧
      ∀ p, (ofPieces p [] [] ps).map content =
        (run.modifyHead fun t => { t with leading := [] }).map content ++ [(.eof, "", [])] := by
  obtain ⟨ps, hpieces, hps⟩ := exists_pieces_of_tokenize h
  -- The pieces behind the tokens before the run.
  obtain ⟨front, later, q, rfl, hlater⟩ : ∃ front later q, ps = front ++ later ∧
      run ++ after = ofPieces q [] [] later := by
    by_cases hbefore : before = []
    · subst hbefore
      exact ⟨[], ps, Place.start base, rfl, hps⟩
    · rw [List.append_assoc] at h hps
      have hno := isEof_eq_false_of_mem_left h (List.append_ne_nil_of_left_ne_nil hne after)
      obtain ⟨front, later, rfl, -, hlater⟩ := exists_split_ofPieces hps.symm hno hbefore
      exact ⟨front, later, _, rfl, hlater⟩
  -- The pieces of the run end with its last token and start with its first.
  obtain ⟨mid, back, rfl, hmid, -⟩ := exists_split_ofPieces hlater.symm hrun hne
  obtain ⟨t, run, rfl⟩ := List.exists_cons_of_ne_nil hne
  rw [List.cons_append] at hmid
  obtain ⟨passed, piece, mid, q', rfl, hkind, htext, htail⟩ :=
    exists_first_ofPieces hmid (hrun t List.mem_cons_self)
  refine ⟨piece :: mid, ?_, ?_, fun p => ?_⟩
  · have hassoc : front ++ (passed ++ piece :: mid ++ back) =
        (front ++ passed) ++ ((piece :: mid) ++ back) := by
      simp only [List.append_assoc, List.cons_append]
    rw [hassoc] at hpieces
    obtain ⟨lineStart, hrest⟩ := exists_pieces_flatMap_text hpieces
    have hpiece : piece.isToken = true := by rw [Piece.isToken, hkind]
    exact pieces_of_head_isToken (pieces_flatMap_text hrest) hpiece true
  · have hspelled := congrArg (List.flatMap fun u : Token => u.gap.toList ++ u.text.toList) htail
    rw [flatMap_ofPieces, List.nil_append, List.flatMap_append, flatMap_ofPieces] at hspelled
    rw [List.flatMap_cons, toList_spell, htext, String.toList_ofList, ← hspelled]
    simp only [List.flatMap_nil, List.append_nil]
  · have hcontent := congrArg (List.map content) htail
    rw [List.map_append, map_content_ofPieces q' (p.advance piece.text) [] [] rfl] at hcontent
    rw [ofPieces_of_token _ _ _ _ hkind, List.map_cons, ← hcontent]
    simp [content, Piece.tokenAt, ofPieces, htext]

end Token

/-- **A run of tokens is read again from its own text.** The text of the source from the first token
of a run to its last, read anywhere, has the tokens of the run; only the comments before the first
are left behind. -/
theorem slice_keeps_tokens {source : String} {base : Nat} {ts before run after : List Token}
    (h : Token.tokenize source base = .ok ts) (hts : ts = before ++ run ++ after) (hne : run ≠ [])
    (hrun : ∀ t ∈ run, t.isEof = false) (base' : Nat) :
    ∃ ts', Token.tokenize ((Token.spanOf run).textIn source base) base' = .ok ts' ∧
      ts'.map Token.content =
        (run.modifyHead fun t => { t with leading := [] }).map Token.content ++
          [(.eof, "", [])] := by
  subst hts
  have htext := Token.textIn_spanOf h (List.infix_append before run after) hne
  obtain ⟨ps, hpieces, hspell, hcontent⟩ := Token.exists_pieces_of_run h hne hrun
  refine ⟨Token.ofPieces (Place.start base') [] [] ps, ?_, hcontent _⟩
  rw [htext, Token.tokenize, ← hspell, hpieces]

/-- Numbers next to points, a doubled quote, comments of both forms, and no blank where none is
needed. -/
def crampedSource : String :=
  "a/* k */??=1..x// d\n@\"b\"\"c\"e"

theorem slice_keeps_tokens_crampedSource :
    ∃ ts, Token.tokenize crampedSource 3 = .ok ts ∧
      ts.map Token.text = ["a", "??=", "1", ".", ".", "x", "@\"b\"\"c\"", "e", ""] ∧
      ∃ ts', Token.tokenize
          ((Token.spanOf ((ts.drop 1).take 6)).textIn crampedSource 3) 0 = .ok ts' ∧
        ts'.map Token.content =
          (((ts.drop 1).take 6).modifyHead fun t => { t with leading := [] }).map Token.content ++
            [(.eof, "", [])] := by
  have hrun : (Token.tokenize crampedSource 3).toOption.map (fun ts =>
        (ts.map Token.text, ((ts.drop 1).take 6).map Token.isEof)) =
      some (["a", "??=", "1", ".", ".", "x", "@\"b\"\"c\"", "e", ""], List.replicate 6 false) := by
    decide +kernel
  obtain ⟨ts, h, hrun⟩ := exists_ok_of_map hrun
  obtain ⟨htexts, hends⟩ := Prod.mk.inj hrun
  have hts : ts = ts.take 1 ++ (ts.drop 1).take 6 ++ (ts.drop 1).drop 6 := by
    rw [List.append_assoc, List.take_append_drop, List.take_append_drop]
  have hne : (ts.drop 1).take 6 ≠ [] := by
    intro hnil
    rw [hnil] at hends
    cases hends
  have hno : ∀ t ∈ (ts.drop 1).take 6, t.isEof = false := by
    intro t ht
    have hmem := List.mem_map_of_mem ht (f := Token.isEof)
    rw [hends] at hmem
    exact List.eq_of_mem_replicate hmem
  exact ⟨ts, h, htexts, slice_keeps_tokens h hts hne hno 0⟩

end ClassSugar
