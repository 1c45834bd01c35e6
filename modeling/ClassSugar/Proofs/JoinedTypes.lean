import ClassSugar.Grammar.Fragment
import ClassSugar.Proofs.HoleParts
import ClassSugar.Proofs.ReflowedTokens
import ClassSugar.Proofs.ShiftedLookahead

/-!
# Types are read back from their text

A type enters the tree as a text: its tokens are joined, with a space where two of them need one and
nothing elsewhere. Joining looks at two tokens at a time and knows nothing of the lexer, which takes
the longest operator it can find. So two tokens without a space between them might be read as one.

In a type there is one such pair. A token can only go on with the first character of what follows it
(`Stops`), the tokens that occur in types are few, and among their operators `?` alone starts longer
ones with another of them: `??` and `?.`. The grammar has no dot behind a `?` (`Derives.isTypeRun`).
It has a `?` behind a `?`, and a type that is written so is not read back; every other type is,
token by token and as a type again (`type_reads_back_iff`).
-/

namespace ClassSugar

open ClassSugar.Text ClassSugar.Renaming

namespace Lookahead

/-! ### Which tokens stand in a type, and which side by side -/

/-- The operators and brackets that a type can have. -/
def typeOperators : List String :=
  ["(", ")", ",", "<", ">", ".", "::", "?", "[", "]"]

/-- The second token is no dot if the first one is a `?`. -/
def Undotted (t u : Token) : Prop :=
  t.isPunct "?" = true → ¬u.isPunct "." = true

/-- The tokens are identifiers and operators of types, and no dot follows a `?`. -/
structure IsTypeRun (run : List Token) : Prop where
  tokens : ∀ t ∈ run, t.kind = .ident ∨ t.kind = .punct ∧ t.text ∈ typeOperators
  chain : run.IsChain Undotted

namespace IsTypeRun

variable {a b : List Token} {t : Token} {p : String}

theorem nil : IsTypeRun [] :=
  ⟨List.forall_mem_nil _, .nil⟩

theorem append (ha : IsTypeRun a) (hb : IsTypeRun b) (havoid : Avoids ["."] b) :
    IsTypeRun (a ++ b) := by
  refine ⟨List.forall_mem_append.mpr ⟨ha.tokens, hb.tokens⟩,
    List.isChain_append.mpr ⟨ha.chain, hb.chain, ?_⟩⟩
  intro t _ u hu _ hdot
  refine havoid "." (by decide) ?_
  rw [atPunct, startsWith, hu]
  exact hdot

theorem mark (ht : t.isPunct "?" = true) : IsTypeRun [t] := by
  obtain ⟨hkind, htext⟩ := Token.isPunct_iff.mp ht
  refine ⟨List.forall_mem_singleton.mpr (.inr ⟨hkind, ?_⟩), .singleton t⟩
  rw [htext]
  decide

theorem operator (ht : t.isPunct p = true) (hp : p ∈ typeOperators ∧ p ≠ "?") (h : IsTypeRun b) :
    IsTypeRun (t :: b) := by
  obtain ⟨hkind, htext⟩ := Token.isPunct_iff.mp ht
  refine ⟨List.forall_mem_cons.mpr ⟨.inr ⟨hkind, htext ▸ hp.1⟩, h.tokens⟩,
    List.isChain_cons.mpr ⟨fun u _ hmark => ?_, h.chain⟩⟩
  exact absurd hmark (Token.not_isPunct_of_ne ht hp.2)

theorem word (ht : t.ident?.isSome = true) (h : IsTypeRun b) : IsTypeRun (t :: b) := by
  refine ⟨List.forall_mem_cons.mpr ⟨.inl (Token.isSome_ident?_iff.mp ht), h.tokens⟩,
    List.isChain_cons.mpr ⟨fun u _ hmark => ?_, h.chain⟩⟩
  exact absurd hmark (Token.not_isPunct_of_ident? ht)

end IsTypeRun

theorem IsLabel.isTypeRun {named : Bool} {label : List Token} (h : IsLabel named label) :
    IsTypeRun label ∧ Avoids ["."] label := by
  cases h with
  | none => exact ⟨.nil, .nil⟩
  | name ht => exact ⟨.word ht .nil, .of_ident? ht⟩

theorem IsMarks.isTypeRun {marks : List Token} (h : IsMarks marks) : IsTypeRun marks := by
  induction h with
  | none => exact .nil
  | nullable ht hmarks ih => exact (IsTypeRun.mark ht).append ih (hmarks.avoids.mono (by decide))
  | @array t u commas marks ht hcommas hu _ ih =>
    have hrank : IsTypeRun (commas ++ u :: marks) := by
      clear ht
      induction commas with
      | nil => exact .operator hu (by decide) ih
      | cons c commas ih =>
        obtain ⟨hc, hcommas⟩ := List.forall_mem_cons.mp hcommas
        exact .operator hc (by decide) (ih hcommas)
    exact .operator ht (by decide) hrank

/-- **No dot follows a `?`** in a type: the dots of a name stand behind identifiers and `>`. -/
theorem Derives.isTypeRun {p : Phrase} {run : List Token} (h : Derives p run) : IsTypeRun run := by
  induction h with
  | tuple hopening _ hclosing hmarks ih =>
    apply IsTypeRun.operator hopening (by decide)
    apply ih.append _ (.of_isPunct hclosing (by decide))
    exact .operator hclosing (by decide) hmarks.isTypeRun
  | name ht _ hmarks ih =>
    apply IsTypeRun.word (isSome_ident?_of_startsTypeName ht)
    exact ih.append hmarks.isTypeRun (hmarks.avoids.mono (by decide))
  | aliased ht hcolons hv _ hmarks ih =>
    apply IsTypeRun.word (isSome_ident?_of_startsTypeName ht)
    apply IsTypeRun.operator hcolons (by decide)
    apply IsTypeRun.word hv
    exact ih.append hmarks.isTypeRun (hmarks.avoids.mono (by decide))
  | last _ hlabel ih => exact ih.append hlabel.isTypeRun.1 hlabel.isTypeRun.2
  | @more _ comma _ _ others _ hlabel hcomma _ ihtype ihothers =>
    have hafter : Avoids ["."] (comma :: others) := .of_isPunct hcomma (by decide)
    apply ihtype.append _ (hlabel.isTypeRun.2.append hafter)
    exact hlabel.isTypeRun.1.append (.operator hcomma (by decide) ihothers) hafter
  | arguments hopening _ hclosing _ ihtypes ihparts =>
    apply IsTypeRun.operator hopening (by decide)
    apply ihtypes.append _ (.of_isPunct hclosing (by decide))
    exact .operator hclosing (by decide) ihparts
  | bare _ ih => exact ih
  | stop => exact .nil
  | dot hdot hv _ ih => exact .operator hdot (by decide) (.word hv ih)

/-- A token with a kind and a text and nothing else. -/
def Token.ofForm (x : Token.Kind × String) : Token :=
  { (default : Token) with kind := x.1, text := x.2 }

/-- **Only kinds and texts count:** tokens that are like those of a type are passed over too. -/
theorem exists_typeRest_of_form {run us : List Token} {last : Token} (h : Derives .type run)
    (hus : us.map form = run.map form) (hlast : Avoids continuations [last]) :
    ∃ all, typeRest (us ++ [last]) = some all ∧ all.rest = [last] := by
  -- Tokens of equal forms are the same once everything but their form is forgotten.
  have hmap : ∀ ts, ((typeRest ts).map fun t => t.rest.map (Token.ofForm ∘ form)) =
      (typeRest ((ts.map form).map Token.ofForm)).map Tail.rest := by
    intro ts
    have hkeeps : Token.KeepsForm (Token.ofForm ∘ form) := ⟨fun _ => rfl, fun _ => rfl⟩
    rw [List.map_map, (types_map hkeeps ts).type, Option.map_map]
    rfl
  obtain ⟨t, ht, hrest⟩ := exists_typeRest_append h hlast
  have hfound := hmap (us ++ [last])
  rw [List.map_append, hus, ← List.map_append, ← hmap, ht, Option.map_some, hrest] at hfound
  obtain ⟨all, hall, hleft⟩ := Option.map_eq_some_iff.mp hfound
  -- What is left is known up to its forms, so its length is known: it is the last token.
  have hlength := congrArg List.length hleft
  rw [List.length_map, List.length_map] at hlength
  have hsuffix := List.suffix_iff_eq_drop.mp all.isSuffix
  rw [hlength, List.length_append, Nat.add_sub_cancel, List.drop_left] at hsuffix
  exact ⟨all, hall, hsuffix⟩

end Lookahead

namespace Token

open Lookahead

/-! ### Where tokens end -/

section Cuts

variable {lineStart : Bool} {t u : Token} {p : String} {b : List Char} {d : Char}

/-- Neither an operator nor a number goes on behind `p` with the character. -/
def Ends (p : String) (d : Char) : Prop :=
  (∀ q ∈ puncts, ¬p.toList ++ [d] <+: q.toList) ∧ (p = "." → d.isDigit = false)

theorem punct?_append (hp : p ∈ puncts) (hb : ∀ d, b.head? = some d → Ends p d) :
    punct? (p.toList ++ b) = some p := by
  have hself : ∀ q ∈ puncts, punct? q.toList = some q := by decide +kernel
  refine punct?_of_isPrefix (hself p hp) (List.prefix_append _ _) ?_
  intro q hq hstarts
  rcases List.prefix_or_prefix_of_prefix hstarts (List.prefix_append p.toList b) with hshort | hlong
  · exact hshort
  obtain ⟨more, hmore⟩ := hlong
  cases more with
  | nil => exact ⟨[], by rw [← hmore, List.append_nil, List.append_nil]⟩
  | cons d more =>
    -- The longer operator goes on with the first character of the text.
    rw [← hmore, List.prefix_append_right_inj] at hstarts
    obtain ⟨rest, rfl⟩ := hstarts
    refine absurd ?_ ((hb d rfl).1 q hq)
    exact ⟨more, by rw [← hmore, List.append_assoc]; rfl⟩

theorem isBlank_of_mem_puncts (hp : p ∈ puncts) (hd : d ∈ p.toList) : isBlank d = false := by
  have hall : ∀ q ∈ puncts, q.toList.all (fun c => !isBlank c) = true := by decide +kernel
  simpa using List.all_eq_true.mp (hall p hp) d hd

theorem isWordPart_of_mem_puncts (hp : p ∈ puncts) (hd : d ∈ p.toList) : isWordPart d = false :=
  isWordPart_of_isPlain (isPlain_of_mem_puncts p hp d hd).1

/-- **An operator is cut** where none that is longer stands, and where the dot of a number does not
stand. -/
theorem isCut_operator (hp : p ∈ puncts) (hslash : '/' ∉ p.toList)
    (hb : ∀ d, b.head? = some d → Ends p d) :
    IsCut lineStart ⟨.token .punct, p.toList⟩ b := by
  obtain ⟨c, a, ha⟩ := List.exists_cons_of_ne_nil (ne_empty_of_mem_puncts p hp)
  have hc : c ∈ p.toList := ha ▸ List.mem_cons_self
  have hhash : ∀ q ∈ puncts, '#' ∉ q.toList := by decide
  have hcomment : Piece.comment? lineStart c (a ++ b) = none :=
    comment?_eq_none_of_ne (fun h => hslash (h ▸ hc)) (fun h => hhash p hp (h ▸ hc))
  have hnumber : Piece.startsNumber c (a ++ b) = false := by
    have hdot : ∀ q ∈ puncts, q.toList.head? = some '.' → q = "." := by decide
    refine Bool.eq_false_iff.mpr fun hnumber => ?_
    simp only [Piece.startsNumber, Bool.or_eq_true, Bool.and_eq_true, beq_iff_eq] at hnumber
    rcases hnumber with hdigit | ⟨rfl, hdigit⟩
    · have hpart := isWordPart_of_isWordChar (isWordChar_of_isDigit hdigit)
      rw [isWordPart_of_mem_puncts hp hc] at hpart
      cases hpart
    · obtain rfl : p = "." := hdot p hp (by rw [ha]; rfl)
      obtain rfl : a = [] := (List.cons.inj ha).2.symm
      cases b with
      | nil => cases hdigit
      | cons d b => exact absurd hdigit (Bool.eq_false_iff.mp ((hb d rfl).2 rfl))
  have hfound := punct?_append hp hb
  rw [ha] at hfound ⊢
  exact isCut_of_punct? hfound ha (isBlank_of_mem_puncts hp hc) hcomment hnumber

/-- An identifier as the lexer knows it, or an operator of a type. -/
def Spelled (t : Token) : Prop :=
  t.kind = .ident ∧ IsName t.text.toList ∨ t.kind = .punct ∧ t.text ∈ typeOperators

/-- The token does not go on with the character. -/
def Stops (t : Token) (d : Char) : Prop :=
  (t.kind = .ident → isWordChar d = false) ∧ (t.kind = .punct → Ends t.text d)

/-- The token as a piece of a text. -/
def piece (t : Token) : Piece :=
  ⟨.token t.kind, t.text.toList⟩

theorem mem_puncts_of_mem (h : p ∈ typeOperators) : p ∈ puncts ∧ '/' ∉ p.toList := by
  have hall : ∀ p ∈ typeOperators, p ∈ puncts ∧ '/' ∉ p.toList := by decide
  exact hall p h

theorem Spelled.isCut (h : Spelled t) (hb : ∀ d, b.head? = some d → Stops t d) :
    IsCut lineStart t.piece b := by
  unfold piece
  rcases h with ⟨hkind, hname⟩ | ⟨hkind, htext⟩
  · obtain ⟨c, a, ha⟩ := List.exists_cons_of_ne_nil hname.ne_nil
    rw [hkind, ha]
    exact isCut_name (ha ▸ hname) fun d hd => (hb d hd).1 hkind
  · obtain ⟨hmem, hslash⟩ := mem_puncts_of_mem htext
    rw [hkind]
    exact isCut_operator hmem hslash fun d hd => (hb d hd).2 hkind

theorem Spelled.head_append (h : Spelled t) :
    (t.text.toList ++ b).head? = t.text.toList.head? := by
  have hne : t.text.toList ≠ [] := by
    rcases h with ⟨-, hname⟩ | ⟨-, htext⟩
    · exact hname.ne_nil
    · exact ne_empty_of_mem_puncts _ (mem_puncts_of_mem htext).1
  exact List.head?_append_of_ne_nil _ hne

theorem Spelled.isBlank (h : Spelled t) (hd : t.text.toList.head? = some d) :
    isBlank d = false := by
  have hmem := List.mem_of_head? hd
  rcases h with ⟨-, hname⟩ | ⟨-, htext⟩
  · exact isBlank_of_isWordPart (hname.isWordPart d hmem)
  · exact isBlank_of_mem_puncts (mem_puncts_of_mem htext).1 hmem

/-- Every token stops before a space. -/
theorem stops_space (t : Token) : Stops t ' ' := by
  refine ⟨fun _ => by decide, fun hkind => ⟨fun q hq hstarts => ?_, fun _ => by decide⟩⟩
  have hmem : ' ' ∈ q.toList := hstarts.subset (List.mem_append_right _ (List.mem_singleton_self _))
  cases isBlank_of_mem_puncts hq hmem

/-- **A token stops before the next one** if they are joined without a space, but for a `?` before
another one and before a dot. -/
theorem Spelled.stops_next (ht : Spelled t) (hu : Spelled u) (hspace : ¬needsSpace t u = true)
    (hdot : Undotted t u) (hmarks : ¬(t.isPunct "?" = true ∧ u.isPunct "?" = true))
    (hd : u.text.toList.head? = some d) : Stops t d := by
  have hmem := List.mem_of_head? hd
  -- No character of a word is one of an operator.
  have hplain : ∀ {q}, q ∈ puncts → d ∈ q.toList → isWordChar d = false ∧ d.isDigit = false := by
    intro q hq hdq
    have hpart := isWordPart_of_mem_puncts hq hdq
    have hchar : isWordChar d = false :=
      Bool.eq_false_iff.mpr fun h => Bool.eq_false_iff.mp hpart (isWordPart_of_isWordChar h)
    refine ⟨hchar, Bool.eq_false_iff.mpr fun h => ?_⟩
    exact Bool.eq_false_iff.mp hchar (isWordChar_of_isDigit h)
  rcases hu with ⟨hukind, hname⟩ | ⟨hukind, hutext⟩
  · -- A name: two words are joined with a space, and no operator goes on with a letter.
    refine ⟨fun hkind => ?_, fun hkind =>
      ⟨fun q hq hstarts => ?_, fun _ => hname.head_isDigit d hd⟩⟩
    · simp [needsSpace, isWord, hkind, hukind] at hspace
    · have hdq : d ∈ q.toList :=
        hstarts.subset (List.mem_append_right _ (List.mem_singleton_self _))
      have hpart := hname.isWordPart d hmem
      rw [isWordPart_of_mem_puncts hq hdq] at hpart
      cases hpart
  · obtain ⟨hchar, hdigit⟩ := hplain (mem_puncts_of_mem hutext).1 hmem
    refine ⟨fun _ => hchar, fun hkind => ⟨fun q hq hstarts => ?_, fun _ => hdigit⟩⟩
    have htext := (ht.resolve_left fun h => by rw [h.1] at hkind; cases hkind).2
    -- Of all pairs of operators of a type only `??` and `?.` start an operator.
    have htable : ∀ p ∈ typeOperators, ∀ p' ∈ typeOperators, ∀ q ∈ puncts,
        (p.toList ++ p'.toList.take 1).isPrefixOf q.toList = true →
          p = "?" ∧ (p' = "?" ∨ p' = ".") := by decide +kernel
    have hfirst : u.text.toList.take 1 = [d] := by
      obtain ⟨r, hr⟩ := List.head?_eq_some_iff.mp hd
      rw [hr]
      rfl
    obtain ⟨hmark, hnext⟩ := htable t.text htext u.text hutext q hq
      (List.isPrefixOf_iff_prefix.mpr (hfirst ▸ hstarts))
    have htmark : t.isPunct "?" = true := isPunct_iff.mpr ⟨hkind, hmark⟩
    rcases hnext with hnext | hnext
    · exact hmarks ⟨htmark, isPunct_iff.mpr ⟨hukind, hnext⟩⟩
    · exact hdot htmark (isPunct_iff.mpr ⟨hukind, hnext⟩)

end Cuts

/-! ### Reading a text as tokens -/

/-- What the piece is as a token, if it is one. -/
def Piece.form? (p : Piece) : Option (Token.Kind × String) :=
  match p.kind with
  | .token kind => some (kind, String.ofList p.text)
  | _ => none

theorem map_form_ofPieces (q : Place) (gap : List Char) (leading : List Comment)
    (ps : List Piece) :
    (ofPieces q gap leading ps).map form = ps.filterMap Piece.form? ++ [(.eof, "")] := by
  induction ps generalizing q gap leading with
  | nil => rfl
  | cons p ps ih =>
    rcases p.cases_isToken with ⟨kind, hkind⟩ | hpassed
    · have hform : p.form? = some (kind, String.ofList p.text) := by rw [Piece.form?, hkind]
      rw [ofPieces_of_token _ _ _ _ hkind, List.map_cons, ih, List.filterMap_cons_some hform]
      rfl
    · have hform : p.form? = none := by
        unfold Piece.isToken at hpassed
        unfold Piece.form?
        split
        · next hkind => rw [hkind] at hpassed; cases hpassed
        · rfl
      rw [ofPieces_of_not_token _ _ _ _ hpassed, ih, List.filterMap_cons_none hform]

/-- The text has tokens of these forms, with blanks and comments around them. -/
def ReadsAs (lineStart : Bool) (cs : List Char) (forms : List (Kind × String)) : Prop :=
  ∃ ps, pieces lineStart cs = .ok ps ∧ ps.filterMap Piece.form? = forms

section Reading

variable {lineStart : Bool} {p : Piece} {b : List Char} {forms : List (Kind × String)}

theorem readsAs_of_isCut (h : IsCut lineStart p b) (forms : List (Kind × String)) :
    ReadsAs lineStart (p.text ++ b) forms ↔
      ∃ rest, ReadsAs (p.lineStartAfter lineStart) b rest ∧ forms = p.form?.toList ++ rest := by
  have hcons : ∀ ps : List Piece,
      (p :: ps).filterMap Piece.form? = p.form?.toList ++ ps.filterMap Piece.form? := by
    intro ps
    cases hform : p.form? <;> simp [hform]
  constructor
  · rintro ⟨ps, hps, rfl⟩
    rw [isCut_pieces h] at hps
    cases hrest : pieces (p.lineStartAfter lineStart) b with
    | error fault => rw [hrest] at hps; cases hps
    | ok rest =>
      rw [hrest] at hps
      cases hps
      exact ⟨_, ⟨rest, hrest, rfl⟩, hcons rest⟩
  · rintro ⟨_, ⟨ps, hps, rfl⟩, rfl⟩
    exact ⟨p :: ps, h.pieces_eq hps, hcons ps⟩

/-- A token that is cut is read, and what follows it is read on its own. -/
theorem readsAs_token {t : Token} (h : IsCut lineStart t.piece b) :
    ReadsAs lineStart (t.text.toList ++ b) (form t :: forms) ↔
      ReadsAs (t.piece.lineStartAfter lineStart) b forms := by
  have hform : t.piece.form? = some (form t) := by
    rw [Piece.form?, piece, String.ofList_toList]
    rfl
  have hiff := readsAs_of_isCut h (form t :: forms)
  rw [hform] at hiff
  simpa [piece] using hiff

theorem readsAs_space (hb : ∀ d, b.head? = some d → isBlank d = false) :
    ReadsAs lineStart (' ' :: b) forms ↔
      ReadsAs (Piece.lineStartAfter lineStart ⟨.blank, [' ']⟩) b forms := by
  have hcut : IsCut lineStart ⟨.blank, [' ']⟩ b := isCut_blank (by decide) (by simp) hb
  simpa [Piece.form?] using readsAs_of_isCut hcut forms

/-- **Two marks are not read as marks:** together they are an operator, or the start of one. -/
theorem not_readsAs_marks : ¬ReadsAs lineStart ('?' :: '?' :: b) ((.punct, "?") :: forms) := by
  have hother : ∀ (q : String) (b : List Char), q ≠ "?" →
      IsCut lineStart ⟨.token .punct, q.toList⟩ b →
      ¬ReadsAs lineStart (q.toList ++ b) ((.punct, "?") :: forms) := by
    intro q b hq hcut hreads
    obtain ⟨rest, -, hforms⟩ := (readsAs_of_isCut hcut _).mp hreads
    obtain ⟨-, htext⟩ := Prod.mk.inj (List.cons.inj hforms).1
    exact hq (htext.trans (String.ofList_toList)).symm
  have hlonger : ∀ q ∈ puncts, "??".toList.isPrefixOf q.toList = true → q = "??" ∨ q = "??=" := by
    decide
  by_cases hb : b.head? = some '='
  · obtain ⟨b, rfl⟩ := List.head?_eq_some_iff.mp hb
    refine hother "??=" b (by decide) (isCut_operator (by decide) (by decide) ?_)
    refine fun d _ => ⟨fun q hq hstarts => ?_, nofun⟩
    have hshort : ∀ q ∈ puncts, q.toList.length ≤ 3 := by decide
    exact absurd (hstarts.length_le.trans (hshort q hq)) (by simp)
  · refine hother "??" b (by decide) (isCut_operator (by decide) (by decide) ?_)
    refine fun d hd => ⟨fun q hq hstarts => hb ?_, nofun⟩
    have hstart := List.isPrefixOf_iff_prefix.mpr ((List.prefix_append _ _).trans hstarts)
    rcases hlonger q hq hstart with rfl | rfl
    · exact absurd hstarts.length_le (by simp)
    · obtain ⟨rest, hrest⟩ := hstarts
      rw [hd]
      exact congrArg some (List.cons.inj (List.cons.inj (List.cons.inj hrest).2).2).1

end Reading

/-- **Tokens of a type are read back** from their joined text, unless two marks meet. By induction
on the tokens: the lexer cuts off the first of them, and the space behind it if there is one. -/
theorem readsAs_join_iff {t : Token} {ts : List Token} (hall : ∀ u ∈ t :: ts, Spelled u)
    (hchain : (t :: ts).IsChain Undotted) (lineStart : Bool) :
    ReadsAs lineStart (t.text.toList ++ (joinAfter t ts).toList) ((t :: ts).map form) ↔
      (t :: ts).IsChain fun t u => ¬(t.isPunct "?" = true ∧ u.isPunct "?" = true) := by
  induction ts generalizing t lineStart with
  | nil =>
    have hcut : IsCut lineStart t.piece [] :=
      (hall t List.mem_cons_self).isCut fun _ hd => by cases hd
    refine iff_of_true ((readsAs_token hcut).mpr ⟨[], ?_, rfl⟩) (.singleton t)
    rw [pieces.eq_def]
  | cons u ts ih =>
    obtain ⟨ht, hrest⟩ := List.forall_mem_cons.mp hall
    have hu := hrest u List.mem_cons_self
    obtain ⟨hdot, hchain⟩ := List.isChain_cons_cons.mp hchain
    rw [List.isChain_cons_cons, joinAfter, String.toList_append, String.toList_append]
    by_cases hmarks : t.isPunct "?" = true ∧ u.isPunct "?" = true
    · -- No space is put between two marks, so the lexer takes them together.
      refine iff_of_false ?_ fun h => h.1 hmarks
      obtain ⟨htkind, httext⟩ := isPunct_iff.mp hmarks.1
      obtain ⟨hukind, hutext⟩ := isPunct_iff.mp hmarks.2
      have hspace : needsSpace t u = false := by
        simp [needsSpace, isPunct, isWord, isSpaced, spacedOperators, htkind, hukind, httext,
          hutext]
      rw [hspace, httext, hutext, List.map_cons, form, htkind, httext]
      exact not_readsAs_marks
    rw [and_iff_right hmarks, List.map_cons]
    by_cases hspace : needsSpace t u = true
    · have hcut : IsCut lineStart t.piece (' ' :: (u.text.toList ++ (joinAfter u ts).toList)) :=
        ht.isCut fun d hd => by cases hd; exact stops_space t
      rw [if_pos hspace]
      refine ((readsAs_token hcut).trans (readsAs_space fun d hd => ?_)).trans (ih hrest hchain _)
      exact hu.isBlank (hu.head_append ▸ hd)
    · have hcut : IsCut lineStart t.piece (u.text.toList ++ (joinAfter u ts).toList) := by
        refine ht.isCut fun d hd => ht.stops_next hu hspace hdot hmarks ?_
        exact (hu.head_append ▸ hd)
      rw [if_neg hspace]
      exact (readsAs_token hcut).trans (ih hrest hchain _)

/-! ### Types -/

/-- Some source has a token of this kind and text. -/
def IsLexeme (t : Token) : Prop :=
  ∃ source base ts u, tokenize source base = .ok ts ∧ u ∈ ts ∧ form u = form t

theorem IsLexeme.isName {t : Token} (h : t.IsLexeme) (hkind : t.kind = .ident) :
    IsName t.text.toList := by
  obtain ⟨source, base, ts, u, htokens, hu, hform⟩ := h
  obtain ⟨hukind, htext⟩ := Prod.mk.inj hform
  obtain ⟨ps, hps, rfl⟩ := exists_pieces_of_tokenize htokens
  have hend : u.isEof = false := by
    rw [isEof, hukind, hkind]
    rfl
  obtain ⟨c, r, cut, hat, hread⟩ := exists_tokenAt_of_mem hps hu hend
  rw [hukind, hkind] at hat
  cases hat with
  | word _ _ _ hname =>
    rw [← htext, hread, String.toList_ofList]
    exact IsName.of_run hname

/-- **Normalising a type preserves it.** The tokens are any that sources can have, and a type is
found at some index. Its joined text has the tokens of the type again, kinds and texts, and nothing
behind them but the end; and there a type is found that is all of them. This holds if and only if no
two marks `?` stand side by side: these would be read as one operator. -/
theorem type_reads_back_iff {ts : List Token} (hts : ∀ t ∈ ts, t.IsLexeme) {i : Nat}
    {rest : Tail (ts.drop i)} (hscan : typeRest (ts.drop i) = some rest) (base : Nat) :
    (∃ us eof, tokenize (join rest.read) base = .ok (us ++ [eof]) ∧
      us.map form = rest.read.map form ∧ eof.isEof = true ∧
      ∃ all, typeRest (us ++ [eof]) = some all ∧ all.rest = [eof]) ↔
      rest.read.IsChain fun t u => ¬(t.isPunct "?" = true ∧ u.isPunct "?" = true) := by
  have hderives := derives_read hscan
  have hspelled : ∀ t ∈ rest.read, Spelled t := by
    intro t ht
    have hmem : t ∈ ts.drop i := rest.read_append_rest ▸ List.mem_append_left _ ht
    exact (hderives.isTypeRun.tokens t ht).imp_left fun hkind =>
      ⟨hkind, (hts t (List.mem_of_mem_drop hmem)).isName hkind⟩
  have hchain := hderives.isTypeRun.chain
  -- The right side is now that the lexer reads the forms back; the grammar does the rest.
  obtain ⟨t, r, hread⟩ := List.exists_cons_of_ne_nil rest.read_ne_nil
  rw [hread] at hderives hspelled hchain ⊢
  rw [← readsAs_join_iff hspelled hchain true, ← String.toList_append]
  constructor
  · rintro ⟨us, eof, htokens, hforms, -, -⟩
    obtain ⟨ps, hps, hus⟩ := exists_pieces_of_tokenize htokens
    have hall := map_form_ofPieces (Place.start base) [] [] ps
    rw [← hus, List.map_append, hforms] at hall
    exact ⟨ps, hps, (List.append_inj_left' hall rfl).symm⟩
  · rintro ⟨ps, hps, hforms⟩
    have hall := map_form_ofPieces (Place.start base) [] [] ps
    rw [hforms] at hall
    obtain ⟨us, last, hsplit, hus, hlast⟩ := List.map_eq_append_iff.mp hall
    obtain ⟨eof, rfl, heof⟩ := List.map_eq_singleton_iff.mp hlast
    have hkind : eof.kind = .eof := (Prod.mk.inj heof).1
    refine ⟨us, eof, ?_, hus, by rw [isEof, hkind]; rfl, exists_typeRest_of_form hderives hus ?_⟩
    · rw [← hsplit]
      unfold tokenize
      rw [show join (t :: r) = t.text ++ joinAfter t r from rfl, hps]
    · -- The end is no operator, so no type goes on with it.
      intro p _ hp
      have hpunct := (isPunct_iff.mp hp).1
      rw [hkind] at hpunct
      cases hpunct

/-- A tuple of a type with an alias, arguments and a label, and of another tuple. -/
def nestedTuple : String :=
  "x as ( global ::A . B<@in ? [ , ] ,int>.C a,/* b */ (D,E) ? [] ) ?;"

theorem type_reads_back_iff_nestedTuple :
    ∃ ts, ∃ rest : Tail (ts.drop 2), tokenize nestedTuple 0 = .ok ts ∧ (∀ t ∈ ts, t.IsLexeme) ∧
      typeRest (ts.drop 2) = some rest ∧
      join rest.read = "(global::A.B<@in?[, ], int>.C a, (D, E)?[])?" ∧
      ∃ us eof, tokenize (join rest.read) 0 = .ok (us ++ [eof]) ∧
        us.map form = rest.read.map form ∧ eof.isEof = true ∧
        ∃ all, typeRest (us ++ [eof]) = some all ∧ all.rest = [eof] := by
  have hrun : (tokenize nestedTuple 0).toOption.map (fun ts =>
      (typeRest (ts.drop 2)).map fun rest => (join rest.read, decide (rest.read.IsChain fun t u =>
        ¬(t.isPunct "?" = true ∧ u.isPunct "?" = true)))) =
      some (some ("(global::A.B<@in?[, ], int>.C a, (D, E)?[])?", true)) := by
    decide +kernel
  obtain ⟨ts, h, hrest⟩ := exists_ok_of_map hrun
  obtain ⟨rest, hscan, hjoin⟩ := Option.map_eq_some_iff.mp hrest
  obtain ⟨htext, hchain⟩ := Prod.mk.inj hjoin
  have hts : ∀ t ∈ ts, t.IsLexeme := fun t ht => ⟨nestedTuple, 0, ts, t, h, ht, rfl⟩
  exact ⟨ts, rest, h, hts, hscan, htext,
    (type_reads_back_iff hts hscan 0).mpr (of_decide_eq_true hchain)⟩

end Token

end ClassSugar
