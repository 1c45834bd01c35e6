import ClassSugar.Grammar.Lookahead
import Mathlib.Data.List.Chain

/-!
# The grammar of types

`typeRest` finds the end of a type and builds nothing, so that its answer alone does not say what it
has accepted. This module says it. The types are

* `type`: `(` types `)` marks, or a name with a tail and marks, or an alias, `::` and such a name;
* `types`: one or more of `type` with commas between them, and labels if they stand in a tuple;
* `tail`: type arguments between `<` and `>`, or none, and then parts;
* `parts`: a dot, an identifier and its tail, or nothing;
* `marks`: any number of `?` and of brackets with nothing but commas in them.

`Derives` is this grammar, with the nonterminals as its index. What is passed over by `typeRest` is
a type (`derives_read`). Conversely a type is passed over as a whole wherever the next token does
not go on with it (`exists_typeRest_append`). The functions that look for types call each other on
ever fewer tokens, and the first statement is by induction on their number; the second one is by
induction on the derivation.
-/

namespace ClassSugar

open ClassSugar.Text

/-! ### Words and operators -/

namespace Token

variable {t : Token} {p q : String}

theorem isPunct_iff : t.isPunct p = true ↔ t.kind = .punct ∧ t.text = p := by
  rw [isPunct, Bool.and_eq_true, beq_iff_eq, beq_iff_eq]

theorem isSome_ident?_iff : t.ident?.isSome = true ↔ t.kind = .ident := by
  unfold ident?
  split <;> simp_all

/-- A token is one operator only. -/
theorem not_isPunct_of_ne (h : t.isPunct p = true) (hne : p ≠ q) : ¬t.isPunct q = true :=
  fun hq => hne ((isPunct_iff.mp h).2.symm.trans (isPunct_iff.mp hq).2)

/-- A word is no operator. -/
theorem not_isPunct_of_ident? (h : t.ident?.isSome = true) : ¬t.isPunct p = true := by
  intro hp
  have hkind := (isPunct_iff.mp hp).1
  rw [isSome_ident?_iff.mp h] at hkind
  cases hkind

end Token

namespace Lookahead

theorem isSome_ident?_of_startsTypeName {t : Token} (h : startsTypeName t = true) :
    t.ident?.isSome = true := by
  unfold startsTypeName at h
  split at h
  · next word hword => rw [hword]; rfl
  · cases h

/-! ### The grammar -/

/-- What may follow a type: any number of `?`, and brackets with commas in them. -/
inductive IsMarks : List Token → Prop where
  | none : IsMarks []
  | nullable {t : Token} {marks : List Token} (ht : t.isPunct "?" = true) (h : IsMarks marks) :
      IsMarks (t :: marks)
  | array {t u : Token} {commas marks : List Token} (ht : t.isPunct "[" = true)
      (hcommas : ∀ c ∈ commas, c.isPunct "," = true) (hu : u.isPunct "]" = true)
      (h : IsMarks marks) : IsMarks (t :: (commas ++ u :: marks))

/-- What may stand behind an element of a list of types: a name, where elements are named. -/
inductive IsLabel : Bool → List Token → Prop where
  | none (named : Bool) : IsLabel named []
  | name {t : Token} (ht : t.ident?.isSome = true) : IsLabel true [t]

/-- The nonterminals of the grammar of types. -/
inductive Phrase where
  | type
  /-- A list of types, without its brackets. -/
  | types (named : Bool)
  /-- What follows an identifier in the name of a type. -/
  | tail
  /-- What follows the type arguments of an identifier. -/
  | parts

/-- The tokens are such a phrase. -/
inductive Derives : Phrase → List Token → Prop where
  | tuple {opening closing : Token} {elements marks : List Token}
      (hopening : opening.isPunct "(" = true) (helements : Derives (.types true) elements)
      (hclosing : closing.isPunct ")" = true) (hmarks : IsMarks marks) :
      Derives .type (opening :: (elements ++ closing :: marks))
  | name {t : Token} {tail marks : List Token} (ht : startsTypeName t = true)
      (htail : Derives .tail tail) (hmarks : IsMarks marks) :
      Derives .type (t :: (tail ++ marks))
  | aliased {t colons v : Token} {tail marks : List Token} (ht : startsTypeName t = true)
      (hcolons : colons.isPunct "::" = true) (hv : v.ident?.isSome = true)
      (htail : Derives .tail tail) (hmarks : IsMarks marks) :
      Derives .type (t :: colons :: v :: (tail ++ marks))
  | last {named : Bool} {type label : List Token} (htype : Derives .type type)
      (hlabel : IsLabel named label) : Derives (.types named) (type ++ label)
  | more {named : Bool} {comma : Token} {type label others : List Token}
      (htype : Derives .type type) (hlabel : IsLabel named label)
      (hcomma : comma.isPunct "," = true) (hothers : Derives (.types named) others) :
      Derives (.types named) (type ++ (label ++ comma :: others))
  | arguments {opening closing : Token} {types parts : List Token}
      (hopening : opening.isPunct "<" = true) (htypes : Derives (.types false) types)
      (hclosing : closing.isPunct ">" = true) (hparts : Derives .parts parts) :
      Derives .tail (opening :: (types ++ closing :: parts))
  | bare {parts : List Token} (hparts : Derives .parts parts) : Derives .tail parts
  | stop : Derives .parts []
  | dot {dot v : Token} {tail : List Token} (hdot : dot.isPunct "." = true)
      (hv : v.ident?.isSome = true) (htail : Derives .tail tail) :
      Derives .parts (dot :: v :: tail)

/-! ### What is passed over is a type -/

section Soundness

variable {ts : List Token}

theorem exists_commas_of_arrayRankRest {t : Tail ts} (h : arrayRankRest ts = some t) :
    ∃ commas u, ts = commas ++ u :: t.rest ∧ (∀ c ∈ commas, c.isPunct "," = true) ∧
      u.isPunct "]" = true := by
  induction ts with
  | nil => cases h
  | cons c r ih =>
    unfold arrayRankRest at h
    split at h
    · next hcomma =>
      obtain ⟨t, ht, rfl⟩ := Option.map_eq_some_iff.mp h
      obtain ⟨commas, u, hr, hcommas, hu⟩ := ih ht
      refine ⟨c :: commas, u, ?_, List.forall_mem_cons.mpr ⟨hcomma, hcommas⟩, hu⟩
      rw [Tail.rest_cons, List.cons_append, ← hr]
    · split at h
      · next hclosing =>
        cases h
        exact ⟨[], c, rfl, List.forall_mem_nil _, hclosing⟩
      · cases h

theorem exists_marks (ts : List Token) :
    ∃ marks, ts = marks ++ typeSuffixRest ts ∧ IsMarks marks := by
  induction ts using typeSuffixRest.induct with
  | case1 => exact ⟨[], by rw [typeSuffixRest]; rfl, .none⟩
  | case2 t r hmark ih =>
    obtain ⟨marks, hr, hmarks⟩ := ih
    refine ⟨t :: marks, ?_, .nullable hmark hmarks⟩
    rw [typeSuffixRest, if_pos hmark, List.cons_append, ← hr]
  | case3 t r hmark hbracket rank hrank ih =>
    obtain ⟨marks, hrest, hmarks⟩ := ih
    obtain ⟨commas, u, hr, hcommas, hu⟩ := exists_commas_of_arrayRankRest hrank
    refine ⟨t :: (commas ++ u :: marks), ?_, .array hbracket hcommas hu hmarks⟩
    rw [typeSuffixRest, if_neg hmark, if_pos hbracket, hrank]
    dsimp only
    rw [List.cons_append, List.append_assoc, List.cons_append, ← hrest, ← hr]
  | case4 t r hmark hbracket hrank =>
    refine ⟨[], ?_, .none⟩
    rw [typeSuffixRest, if_neg hmark, if_pos hbracket, hrank]
    rfl
  | case5 t r hmark hbracket =>
    refine ⟨[], ?_, .none⟩
    rw [typeSuffixRest, if_neg hmark, if_neg hbracket]
    rfl

theorem exists_label (named : Bool) (ts : List Token) :
    ∃ label, ts = label ++ ts.drop (if named && atIdent ts then 1 else 0) ∧
      IsLabel named label := by
  split
  · next h =>
    obtain ⟨rfl, hident⟩ := Bool.and_eq_true_iff.mp h
    cases ts with
    | nil => cases hident
    | cons t r => exact ⟨[t], rfl, .name hident⟩
  · exact ⟨[], rfl, .none named⟩

/-- What is left of a list of types, if one type was read. -/
theorem map_rest_typesRest {named : Bool} {closing : String} {t : Tail ts}
    (h : typeRest ts = some t) :
    (typesRest named closing ts).map Tail.rest =
      match t.rest.drop (if named && atIdent t.rest then 1 else 0) with
      | [] => none
      | u :: r =>
        if u.isPunct "," then (typesRest named closing r).map Tail.rest
        else if u.isPunct closing then some r
        else none := by
  rw [typesRest.eq_def, h, Option.bind_some]
  dsimp only
  split
  · rename_i hafter
    simp only [hafter]
    rfl
  · rename_i u r hafter
    simp only [hafter]
    split
    · rw [Option.map_map]
      rfl
    split
    · rfl
    · rfl

/-- What the functions that look for types pass over is what the grammar says. -/
structure Sound (ts : List Token) : Prop where
  type : ∀ t, typeRest ts = some t → ∃ run, ts = run ++ t.rest ∧ Derives .type run
  types : ∀ named closing t, typesRest named closing ts = some t →
    ∃ run u, ts = run ++ u :: t.rest ∧ u.isPunct closing = true ∧ Derives (.types named) run
  tail : ∀ t w, nameRest t ts = some w → ∃ run, ts = run ++ w.rest ∧ Derives .tail run
  parts : ∀ w, partsRest ts = some w → ∃ run, ts = run ++ w.1 ∧ Derives .parts run

section Step

variable (ih : ∀ ds : List Token, ds.length < ts.length → Sound ds)

include ih

theorem exists_parts_of {w : { rest : List Token // rest <:+ ts }} (h : partsRest ts = some w) :
    ∃ run, ts = run ++ w.1 ∧ Derives .parts run := by
  rcases ts with _ | ⟨u, _ | ⟨v, r⟩⟩
  · rw [partsRest.eq_def] at h
    cases h
    exact ⟨[], rfl, .stop⟩
  · rw [partsRest.eq_def] at h
    cases h
    exact ⟨[], rfl, .stop⟩
  rw [partsRest] at h
  split at h
  · next hpart =>
    obtain ⟨hdot, hv⟩ := Bool.and_eq_true_iff.mp hpart
    obtain ⟨w, hw, rfl⟩ := Option.map_eq_some_iff.mp h
    obtain ⟨run, hr, htail⟩ := (ih r (by simp only [List.length_cons]; omega)).tail v w hw
    exact ⟨u :: v :: run, congrArg (u :: v :: ·) hr, .dot hdot hv htail⟩
  · cases h
    exact ⟨[], rfl, .stop⟩

theorem exists_tail_of {t : Token} {w : Tail (t :: ts)} (h : nameRest t ts = some w) :
    ∃ run, ts = run ++ w.rest ∧ Derives .tail run := by
  cases ts with
  | nil =>
    rw [nameRest] at h
    cases h
    exact ⟨[], rfl, .bare .stop⟩
  | cons u r =>
    rw [nameRest] at h
    split at h
    · next hopening =>
      obtain ⟨args, hargs, h⟩ := Option.bind_eq_some_iff.mp h
      obtain ⟨parts, hparts, rfl⟩ := Option.map_eq_some_iff.mp h
      obtain ⟨types, closing, hr, hclosing, htypes⟩ :=
        (ih r (Nat.lt_succ_self _)).types false ">" args hargs
      obtain ⟨run, hrest, hrun⟩ :=
        (ih args.rest (Nat.lt_succ_of_lt args.shorter)).parts parts hparts
      refine ⟨u :: (types ++ closing :: run), ?_, .arguments hopening htypes hclosing hrun⟩
      rw [Tail.rest_ofSuffix, List.cons_append, List.append_assoc, List.cons_append, ← hrest, ← hr]
    · obtain ⟨parts, hparts, rfl⟩ := Option.map_eq_some_iff.mp h
      obtain ⟨run, hr, hrun⟩ := exists_parts_of ih hparts
      exact ⟨run, hr, .bare hrun⟩

theorem exists_type_of {w : Tail ts} (h : typeRest ts = some w) :
    ∃ run, ts = run ++ w.rest ∧ Derives .type run := by
  cases ts with
  | nil =>
    rw [typeRest] at h
    cases h
  | cons t r =>
    rw [typeRest.eq_def] at h
    dsimp only at h
    split at h
    · next hopening =>
      obtain ⟨u, hu, rfl⟩ := Option.map_eq_some_iff.mp h
      obtain ⟨elements, closing, hr, hclosing, helements⟩ :=
        (ih r (Nat.lt_succ_self _)).types true ")" u hu
      obtain ⟨marks, hrest, hmarks⟩ := exists_marks u.rest
      refine ⟨t :: (elements ++ closing :: marks), ?_, .tuple hopening helements hclosing hmarks⟩
      change t :: r = t :: (elements ++ closing :: marks) ++ typeSuffixRest u.rest
      rw [List.cons_append, List.append_assoc, List.cons_append, ← hrest, ← hr]
    split at h
    · next hstart =>
      -- A name without an alias, whatever comes next.
      have hname : ∀ w : Tail (t :: r), (nameRest t r).map withSuffix = some w →
          ∃ run, t :: r = run ++ w.rest ∧ Derives .type run := by
        intro w hw
        obtain ⟨u, hu, rfl⟩ := Option.map_eq_some_iff.mp hw
        obtain ⟨tail, hr, htail⟩ := (ih r (Nat.lt_succ_self _)).tail t u hu
        obtain ⟨marks, hrest, hmarks⟩ := exists_marks u.rest
        refine ⟨t :: (tail ++ marks), ?_, .name hstart htail hmarks⟩
        change t :: r = t :: (tail ++ marks) ++ typeSuffixRest u.rest
        rw [List.cons_append, List.append_assoc, ← hrest, ← hr]
      rcases r with _ | ⟨u, _ | ⟨v, r⟩⟩
      · exact hname w h
      · exact hname w h
      dsimp only at h
      split at h
      · next halias =>
        obtain ⟨hcolons, hv⟩ := Bool.and_eq_true_iff.mp halias
        obtain ⟨y, hy, rfl⟩ := Option.map_eq_some_iff.mp h
        obtain ⟨tail, hr, htail⟩ := (ih r (by simp only [List.length_cons]; omega)).tail v y hy
        obtain ⟨marks, hrest, hmarks⟩ := exists_marks y.rest
        refine ⟨t :: u :: v :: (tail ++ marks), ?_, .aliased hstart hcolons hv htail hmarks⟩
        change t :: u :: v :: r = t :: u :: v :: (tail ++ marks) ++ typeSuffixRest y.rest
        rw [List.cons_append, List.cons_append, List.cons_append, List.append_assoc, ← hrest, ← hr]
      · exact hname w h
    · cases h

theorem exists_types_of {named : Bool} {closing : String} {w : Tail ts}
    (h : typesRest named closing ts = some w) :
    ∃ run u, ts = run ++ u :: w.rest ∧ u.isPunct closing = true ∧ Derives (.types named) run := by
  obtain ⟨t, ht⟩ : ∃ t, typeRest ts = some t := by
    rw [typesRest.eq_def] at h
    obtain ⟨t, ht, -⟩ := Option.bind_eq_some_iff.mp h
    exact ⟨t, ht⟩
  obtain ⟨type, hts, htype⟩ := exists_type_of ih ht
  obtain ⟨label, hlabelled, hlabel⟩ := exists_label named t.rest
  -- Behind the type and its label stands a comma, with more types, or the closing bracket.
  have hrest : (typesRest named closing ts).map Tail.rest = _ := map_rest_typesRest ht
  rw [h, Option.map_some] at hrest
  cases hafter : t.rest.drop (if named && atIdent t.rest then 1 else 0) with
  | nil =>
    rw [hafter] at hrest
    cases hrest
  | cons u r =>
    rw [hafter] at hrest hlabelled
    dsimp only at hrest
    have hshorter : r.length < ts.length := by
      have hlength := congrArg List.length hlabelled
      have htail := t.shorter
      rw [List.length_append, List.length_cons] at hlength
      omega
    split at hrest
    · next hcomma =>
      obtain ⟨y, hy, hwy⟩ := Option.map_eq_some_iff.mp hrest.symm
      obtain ⟨others, v, hr, hv, hothers⟩ := (ih r hshorter).types named closing y hy
      refine ⟨type ++ (label ++ u :: others), v, ?_, hv, .more htype hlabel hcomma hothers⟩
      rw [← hwy, List.append_assoc, List.append_assoc, List.cons_append, ← hr, ← hlabelled, ← hts]
    split at hrest
    · next hclosing =>
      refine ⟨type ++ label, u, ?_, hclosing, .last htype hlabel⟩
      rw [Option.some.inj hrest, List.append_assoc, ← hlabelled, ← hts]
    · cases hrest

end Step

theorem sound (ts : List Token) : Sound ts := by
  -- The four functions call each other, always on fewer tokens.
  induction hlength : ts.length using Nat.strong_induction_on generalizing ts with
  | _ n ih =>
    have hshorter : ∀ ds : List Token, ds.length < ts.length → Sound ds :=
      fun ds hds => ih ds.length (hlength ▸ hds) ds rfl
    exact ⟨fun _ => exists_type_of hshorter, fun _ _ _ => exists_types_of hshorter,
      fun _ _ => exists_tail_of hshorter, fun _ => exists_parts_of hshorter⟩

/-- **What is passed over is a type.** -/
theorem derives_read {t : Tail ts} (h : typeRest ts = some t) : Derives .type t.read := by
  obtain ⟨run, hts, hrun⟩ := (sound ts).type t h
  have hread : t.read ++ t.rest = run ++ t.rest := t.read_append_rest.trans hts
  rwa [List.append_cancel_right hread]

end Soundness

/-! ### A type is passed over as a whole -/

/-- The next token is none of these operators. -/
def Avoids (ps : List String) (ts : List Token) : Prop :=
  ∀ p ∈ ps, ¬atPunct p ts = true

namespace Avoids

variable {ps : List String} {t : Token} {a b r : List Token}

theorem nil : Avoids ps [] :=
  fun _ _ => Bool.false_ne_true

theorem of_isPunct {q : String} (h : t.isPunct q = true) (hq : q ∉ ps) : Avoids ps (t :: r) :=
  fun _ hp => Token.not_isPunct_of_ne h fun heq => hq (heq ▸ hp)

theorem of_ident? (h : t.ident?.isSome = true) : Avoids ps (t :: r) :=
  fun _ _ => Token.not_isPunct_of_ident? h

theorem append (ha : Avoids ps a) (hb : Avoids ps b) : Avoids ps (a ++ b) := by
  cases a with
  | nil => exact hb
  | cons t a => exact ha

theorem mono {qs : List String} (h : Avoids ps r) (hsub : qs ⊆ ps) : Avoids qs r :=
  fun p hp => h p (hsub hp)

theorem head (h : Avoids ps (t :: r)) (p : String) (hp : p ∈ ps) : ¬t.isPunct p = true :=
  h p hp

/-- So it does not start what only this operator starts. -/
theorem head_and {c : Bool} (h : Avoids ps (t :: r)) (p : String) (hp : p ∈ ps) :
    ¬(t.isPunct p && c) = true :=
  fun hboth => h p hp (Bool.and_eq_true_iff.mp hboth).1

end Avoids

/-- The operators with which a type goes on. -/
def continuations : List String :=
  ["?", "[", "<", ".", "::"]

section Completeness

variable {named : Bool} {type label tail parts marks rest r : List Token} {t u v : Token}

theorem IsMarks.avoids (h : IsMarks marks) : Avoids ["<", ".", "::"] marks := by
  cases h with
  | none => exact .nil
  | nullable ht _ | array ht _ _ _ => exact .of_isPunct ht (by decide)

theorem map_rest_arrayRankRest {commas : List Token} (hcommas : ∀ c ∈ commas, c.isPunct "," = true)
    (hu : u.isPunct "]" = true) :
    (arrayRankRest (commas ++ u :: r)).map Tail.rest = some r := by
  induction commas with
  | nil =>
    rw [List.nil_append, arrayRankRest, if_neg (Token.not_isPunct_of_ne hu (by decide)), if_pos hu]
    rfl
  | cons c commas ih =>
    obtain ⟨hc, hcommas⟩ := List.forall_mem_cons.mp hcommas
    rw [List.cons_append, arrayRankRest, if_pos hc, Option.map_map]
    exact ih hcommas

theorem typeSuffixRest_append (h : IsMarks marks) (hrest : Avoids continuations rest) :
    typeSuffixRest (marks ++ rest) = rest := by
  induction h with
  | none =>
    cases rest with
    | nil => exact typeSuffixRest.eq_1
    | cons t r =>
      rw [List.nil_append, typeSuffixRest, if_neg (hrest.head "?" (by decide)),
        if_neg (hrest.head "[" (by decide))]
  | nullable ht _ ih => rw [List.cons_append, typeSuffixRest, if_pos ht, ih]
  | array ht hcommas hu _ ih =>
    obtain ⟨rank, hrank, hleft⟩ := Option.map_eq_some_iff.mp (map_rest_arrayRankRest hcommas hu)
    rw [List.cons_append, List.append_assoc, List.cons_append, typeSuffixRest,
      if_neg (Token.not_isPunct_of_ne ht (by decide)), if_pos ht, hrank]
    dsimp only
    rw [hleft, ih]

theorem rest_withSuffix {ts : List Token} {w : Tail ts} (h : IsMarks marks)
    (hrest : Avoids continuations rest) (hw : w.rest = marks ++ rest) :
    (withSuffix w).rest = rest :=
  (congrArg typeSuffixRest hw).trans (typeSuffixRest_append h hrest)

/-- The functions that look for types pass over the tokens as such a phrase, where what follows does
not go on with it. -/
def Phrase.Passes : Phrase → List Token → Prop
  | .type, run => ∀ rest, Avoids continuations rest →
      (typeRest (run ++ rest)).map Tail.rest = some rest
  | .types named, run => ∀ closing u rest, closing ∈ [")", ">"] → u.isPunct closing = true →
      (typesRest named closing (run ++ u :: rest)).map Tail.rest = some rest
  | .tail, run => ∀ t rest, Avoids ["<", "."] rest →
      (nameRest t (run ++ rest)).map Tail.rest = some rest
  | .parts, run => ∀ rest, Avoids ["<", "."] rest →
      (partsRest (run ++ rest)).map Subtype.val = some rest

theorem drop_label {p : String} (h : IsLabel named label) (hu : u.isPunct p = true) :
    (label ++ u :: r).drop (if named && atIdent (label ++ u :: r) then 1 else 0) = u :: r := by
  cases h with
  | none =>
    have hno : atIdent (u :: r) = false :=
      Bool.eq_false_iff.mpr fun hident => Token.not_isPunct_of_ident? hident hu
    rw [List.nil_append, hno, Bool.and_false]
    rfl
  | @name t ht =>
    have hyes : atIdent (t :: u :: r) = true := ht
    rw [List.singleton_append, hyes]
    rfl

/-- One type of a list is passed over, and the operator behind it decides. -/
theorem map_rest_typesRest_append {p : String} (closing : String)
    (htype : Phrase.Passes .type type) (hlabel : IsLabel named label) (hu : u.isPunct p = true)
    (hp : p ∉ continuations) :
    (typesRest named closing (type ++ (label ++ u :: r))).map Tail.rest =
      if u.isPunct "," then (typesRest named closing r).map Tail.rest
      else if u.isPunct closing then some r
      else none := by
  have hnext : Avoids continuations (label ++ u :: r) := by
    cases hlabel with
    | none => exact .of_isPunct hu hp
    | name ht => exact .of_ident? ht
  obtain ⟨t, ht, hrest⟩ := Option.map_eq_some_iff.mp (htype _ hnext)
  rw [map_rest_typesRest ht, hrest, drop_label hlabel hu]

theorem passes_last (htype : Phrase.Passes .type type) (hlabel : IsLabel named label) :
    Phrase.Passes (.types named) (type ++ label) := by
  intro closing u rest hclosing hu
  have hother : ∀ q ∈ [")", ">"], q ∉ continuations ∧ q ≠ "," := by decide
  obtain ⟨havoid, hcomma⟩ := hother closing hclosing
  rw [List.append_assoc, map_rest_typesRest_append closing htype hlabel hu havoid,
    if_neg (Token.not_isPunct_of_ne hu hcomma), if_pos hu]

theorem passes_more {others : List Token} (htype : Phrase.Passes .type type)
    (hlabel : IsLabel named label) (hu : u.isPunct "," = true)
    (hothers : Phrase.Passes (.types named) others) :
    Phrase.Passes (.types named) (type ++ (label ++ u :: others)) := by
  intro closing u rest hclosing hclose
  rw [List.append_assoc, List.append_assoc, List.cons_append,
    map_rest_typesRest_append closing htype hlabel hu (by decide), if_pos hu]
  exact hothers closing u rest hclosing hclose

theorem passes_stop : Phrase.Passes .parts [] := by
  intro rest hrest
  rw [List.nil_append]
  rcases rest with _ | ⟨u, _ | ⟨v, r⟩⟩
  · rw [partsRest.eq_def]
    rfl
  · rw [partsRest.eq_def]
    rfl
  · rw [partsRest, if_neg (hrest.head_and "." (by decide))]
    rfl

theorem passes_dot (hu : u.isPunct "." = true) (hv : v.ident?.isSome = true)
    (htail : Phrase.Passes .tail tail) : Phrase.Passes .parts (u :: v :: tail) := by
  intro rest hrest
  rw [List.cons_append, List.cons_append, partsRest, if_pos (Bool.and_eq_true_iff.mpr ⟨hu, hv⟩),
    Option.map_map]
  exact htail v rest hrest

theorem passes_bare (hparts : Phrase.Passes .parts parts) (havoid : Avoids ["<", "::"] parts) :
    Phrase.Passes .tail parts := by
  intro t rest hrest
  have hnext : Avoids ["<"] (parts ++ rest) :=
    (havoid.mono (by decide)).append (hrest.mono (by decide))
  have hpassed := hparts rest hrest
  generalize parts ++ rest = ts at hnext hpassed
  cases ts with
  | nil =>
    rw [partsRest.eq_def] at hpassed
    rw [nameRest]
    exact hpassed
  | cons u r =>
    rw [nameRest, if_neg (hnext.head "<" (by decide)), Option.map_map]
    exact hpassed

theorem passes_arguments {types : List Token} (hu : u.isPunct "<" = true)
    (htypes : Phrase.Passes (.types false) types) (hv : v.isPunct ">" = true)
    (hparts : Phrase.Passes .parts parts) :
    Phrase.Passes .tail (u :: (types ++ v :: parts)) := by
  intro t rest hrest
  obtain ⟨args, hargs, hleft⟩ := Option.map_eq_some_iff.mp
    (htypes ">" v (parts ++ rest) (by decide) hv)
  have hpassed := hparts rest hrest
  rw [← hleft] at hpassed
  rw [List.cons_append, List.append_assoc, List.cons_append, nameRest, if_pos hu, hargs,
    Option.bind_some, Option.map_map]
  exact hpassed

/-- The name of a type starts no tuple, and is no alias where no `::` follows it. -/
theorem typeRest_name (ht : startsTypeName t = true) (hr : Avoids ["::"] r) :
    typeRest (t :: r) = (nameRest t r).map withSuffix := by
  have hword := isSome_ident?_of_startsTypeName ht
  rw [typeRest.eq_def]
  dsimp only
  rw [if_neg (Token.not_isPunct_of_ident? hword), if_pos ht]
  rcases r with _ | ⟨u, _ | ⟨v, r⟩⟩
  · rfl
  · rfl
  · exact if_neg (hr.head_and "::" (by decide))

theorem typeRest_aliased (ht : startsTypeName t = true) (hu : u.isPunct "::" = true)
    (hv : v.ident?.isSome = true) :
    typeRest (t :: u :: v :: r) = (nameRest v r).map fun w => withSuffix ((w.cons u).cons t) := by
  have hword := isSome_ident?_of_startsTypeName ht
  rw [typeRest.eq_def]
  dsimp only
  rw [if_neg (Token.not_isPunct_of_ident? hword), if_pos ht]
  exact if_pos (Bool.and_eq_true_iff.mpr ⟨hu, hv⟩)

theorem passes_name (ht : startsTypeName t = true) (htail : Phrase.Passes .tail tail)
    (havoid : Avoids ["::"] tail) (hmarks : IsMarks marks) :
    Phrase.Passes .type (t :: (tail ++ marks)) := by
  intro rest hrest
  have hafter := hmarks.avoids.append (hrest.mono (by decide))
  obtain ⟨w, hw, hleft⟩ := Option.map_eq_some_iff.mp (htail t _ (hafter.mono (by decide)))
  rw [List.cons_append, List.append_assoc,
    typeRest_name ht (havoid.append (hafter.mono (by decide))), hw]
  exact congrArg some (rest_withSuffix hmarks hrest hleft)

theorem passes_aliased (ht : startsTypeName t = true) (hu : u.isPunct "::" = true)
    (hv : v.ident?.isSome = true) (htail : Phrase.Passes .tail tail) (hmarks : IsMarks marks) :
    Phrase.Passes .type (t :: u :: v :: (tail ++ marks)) := by
  intro rest hrest
  have hafter := hmarks.avoids.append (hrest.mono (by decide))
  obtain ⟨w, hw, hleft⟩ := Option.map_eq_some_iff.mp (htail v _ (hafter.mono (by decide)))
  rw [List.cons_append, List.cons_append, List.cons_append, List.append_assoc,
    typeRest_aliased ht hu hv, hw]
  exact congrArg some (rest_withSuffix hmarks hrest hleft)

theorem passes_tuple {elements : List Token} (hu : u.isPunct "(" = true)
    (helements : Phrase.Passes (.types true) elements) (hv : v.isPunct ")" = true)
    (hmarks : IsMarks marks) : Phrase.Passes .type (u :: (elements ++ v :: marks)) := by
  intro rest hrest
  obtain ⟨w, hw, hleft⟩ := Option.map_eq_some_iff.mp
    (helements ")" v (marks ++ rest) (by decide) hv)
  rw [List.cons_append, List.append_assoc, List.cons_append, typeRest.eq_def]
  dsimp only
  rw [if_pos hu, hw]
  exact congrArg some (rest_withSuffix hmarks hrest hleft)

theorem Derives.avoids_of_parts (h : Derives .parts parts) : Avoids ["<", "::"] parts := by
  cases h with
  | stop => exact .nil
  | dot hdot _ _ => exact .of_isPunct hdot (by decide)

theorem Derives.avoids_of_tail (h : Derives .tail tail) : Avoids ["::"] tail := by
  cases h with
  | arguments hopening _ _ _ => exact .of_isPunct hopening (by decide)
  | bare hparts => exact hparts.avoids_of_parts.mono (by decide)

theorem Derives.passes {p : Phrase} {run : List Token} (h : Derives p run) : p.Passes run := by
  induction h with
  | tuple hopening _ hclosing hmarks ih => exact passes_tuple hopening ih hclosing hmarks
  | name ht htail hmarks ih => exact passes_name ht ih htail.avoids_of_tail hmarks
  | aliased ht hcolons hv _ hmarks ih => exact passes_aliased ht hcolons hv ih hmarks
  | last _ hlabel ih => exact passes_last ih hlabel
  | more _ hlabel hcomma _ ihtype ihothers => exact passes_more ihtype hlabel hcomma ihothers
  | arguments hopening _ hclosing _ ihtypes ihparts =>
    exact passes_arguments hopening ihtypes hclosing ihparts
  | bare hparts ih => exact passes_bare ih hparts.avoids_of_parts
  | stop => exact passes_stop
  | dot hdot hv _ ih => exact passes_dot hdot hv ih

/-- **A type is passed over as a whole.** -/
theorem exists_typeRest_append {run : List Token} (h : Derives .type run)
    (hrest : Avoids continuations rest) : ∃ t, typeRest (run ++ rest) = some t ∧ t.rest = rest :=
  Option.map_eq_some_iff.mp (h.passes rest hrest)

end Completeness

end Lookahead

end ClassSugar
