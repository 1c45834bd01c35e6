import ClassSugar.Proofs.HeadLayout
import ClassSugar.Proofs.ShiftedTree
import ClassSugar.Proofs.TypeGrammar

/-!
# Looking ahead in a source that stands elsewhere

Whoever looks ahead asks tokens for their kinds and texts, never for where they stand. So looking at
moved tokens gives the same answer: the same number of tokens, the same decision, or the same rest
with its tokens moved (`Tail.map`).

Functions that are called with a test of tokens see no move if the test sees none (`Blind`).
-/

namespace ClassSugar

open ClassSugar.Text

/-! ### Rests of moved sequences -/

namespace Text.Tail

variable {α β : Type} (f : α → β) {cs : List α}

/-- The rest of a sequence, with the sequence changed element by element. -/
def map (t : Tail cs) : Tail (cs.map f) where
  rest := t.rest.map f
  isSuffix := t.isSuffix.map f
  shorter := by rw [List.length_map, List.length_map]; exact t.shorter

theorem rest_map (t : Tail cs) : (t.map f).rest = t.rest.map f := rfl

theorem read_map (t : Tail cs) : (t.map f).read = t.read.map f := by
  rw [read, read, rest_map, List.length_map, List.length_map, List.map_take]

theorem take_length_read (t : Tail cs) : cs.take t.read.length = t.read :=
  (List.prefix_iff_eq_take.mp ⟨t.rest, t.read_append_rest⟩).symm

/-- Rests of one sequence are the same if they have the same elements. -/
theorem ext_rest {t u : Tail cs} (h : t.rest = u.rest) : t = u := by
  cases t
  cases u
  cases h
  rfl

end Text.Tail

/-! ### Tests of tokens -/

namespace Token

/-- The tokens are changed, but neither their kinds nor their texts. -/
structure KeepsForm (f : Token → Token) : Prop where
  kind : ∀ t, (f t).kind = t.kind
  text : ∀ t, (f t).text = t.text

namespace KeepsForm

variable {f : Token → Token} (hf : KeepsForm f) (t : Token)

include hf

theorem isPunct (p : String) : (f t).isPunct p = t.isPunct p := by
  rw [Token.isPunct, Token.isPunct, hf.kind, hf.text]

theorem ident? : (f t).ident? = t.ident? := by
  rw [Token.ident?, Token.ident?, hf.kind, hf.text]

end KeepsForm

/-- The test does not see where a token stands. -/
def Blind (k : Nat) {α : Type} (test : Token → α) : Prop :=
  ∀ t, test (t.shift k 0) = test t

variable (k : Nat) (t : Token)

@[simp] theorem isPunct_shift (text : String) : (t.shift k 0).isPunct text = t.isPunct text := rfl

@[simp] theorem ident?_shift : (t.shift k 0).ident? = t.ident? := rfl

@[simp] theorem isEmpty_leading_shift : (t.shift k 0).leading.isEmpty = t.leading.isEmpty :=
  List.isEmpty_map

end Token

namespace Lookahead

variable {k : Nat} {ts : List Token}

@[simp] theorem isOpen_shift (t : Token) : isOpen (t.shift k 0) = isOpen t := rfl

@[simp] theorem isClose_shift (t : Token) : isClose (t.shift k 0) = isClose t := rfl

theorem startsWith_shift {test : Token → Bool} (htest : Token.Blind k test) (ts : List Token) :
    startsWith test (ts.map (Token.shift k 0)) = startsWith test ts := by
  cases ts with
  | nil => rfl
  | cons t ts => exact htest t

@[simp] theorem atPunct_shift (text : String) (ts : List Token) :
    atPunct text (ts.map (Token.shift k 0)) = atPunct text ts :=
  startsWith_shift (fun _ => rfl) ts

@[simp] theorem atWord_shift (word : String) (ts : List Token) :
    atWord word (ts.map (Token.shift k 0)) = atWord word ts :=
  startsWith_shift (fun _ => rfl) ts

@[simp] theorem atIdent_shift (ts : List Token) :
    atIdent (ts.map (Token.shift k 0)) = atIdent ts :=
  startsWith_shift (fun _ => rfl) ts

/-! ### Bracket groups -/

theorem closeGroup_shift (depth : Nat) (ts : List Token) :
    closeGroup depth (ts.map (Token.shift k 0)) =
      (closeGroup depth ts).map (Tail.map (Token.shift k 0)) := by
  induction ts generalizing depth with
  | nil => rfl
  | cons t r ih =>
    -- The type of a rest names the list, so the list is taken apart by `change`.
    change closeGroup depth (t.shift k 0 :: r.map (Token.shift k 0)) = _
    rw [closeGroup.eq_def, closeGroup.eq_def]
    dsimp only
    rw [isOpen_shift, isClose_shift]
    split
    · rw [ih, Option.map_map, Option.map_map]
      rfl
    split
    · rcases depth with _ | _ | depth
      · rfl
      · rfl
      · dsimp only
        rw [ih, Option.map_map, Option.map_map]
        rfl
    · rw [ih, Option.map_map, Option.map_map]
      rfl

theorem skipGroup_shift (ts : List Token) :
    skipGroup (ts.map (Token.shift k 0)) = (skipGroup ts).map (Tail.map (Token.shift k 0)) :=
  closeGroup_shift 0 ts

/-! ### Types

Nothing but kinds and texts counts for where a type ends, so this holds of more than moves. -/

section Types

variable {f : Token → Token} (hf : Token.KeepsForm f)

include hf

theorem arrayRankRest_map (ts : List Token) :
    arrayRankRest (ts.map f) = (arrayRankRest ts).map (Tail.map f) := by
  induction ts with
  | nil => rfl
  | cons t r ih =>
    change arrayRankRest (f t :: r.map f) = _
    rw [arrayRankRest, arrayRankRest, hf.isPunct, hf.isPunct]
    split
    · rw [ih, Option.map_map, Option.map_map]
      rfl
    split
    · rfl
    · rfl

theorem typeSuffixRest_map (ts : List Token) :
    typeSuffixRest (ts.map f) = (typeSuffixRest ts).map f := by
  induction ts using typeSuffixRest.induct with
  | case1 => simp [typeSuffixRest]
  | case2 t r hq ih =>
    rw [List.map_cons, typeSuffixRest, typeSuffixRest, hf.isPunct, if_pos hq, if_pos hq, ih]
  | case3 t r hq hb rank hrank ih =>
    rw [List.map_cons, typeSuffixRest, typeSuffixRest, hf.isPunct, hf.isPunct, if_neg hq,
      if_neg hq, if_pos hb, if_pos hb, arrayRankRest_map hf, hrank]
    exact ih
  | case4 t r hq hb hrank =>
    rw [List.map_cons, typeSuffixRest, typeSuffixRest, hf.isPunct, hf.isPunct, if_neg hq,
      if_neg hq, if_pos hb, if_pos hb, arrayRankRest_map hf, hrank]
    rfl
  | case5 t r hq hb =>
    rw [List.map_cons, typeSuffixRest, typeSuffixRest, hf.isPunct, hf.isPunct, if_neg hq,
      if_neg hq, if_neg hb, if_neg hb, List.map_cons]

theorem withSuffix_map (t : Tail ts) : withSuffix (t.map f) = (withSuffix t).map f :=
  Tail.ext_rest (typeSuffixRest_map hf t.rest)

/-- All functions that look for types see no difference. -/
structure TypesMap (f : Token → Token) (ts : List Token) : Prop where
  type : typeRest (ts.map f) = (typeRest ts).map (Tail.map f)
  types : ∀ named closing, typesRest named closing (ts.map f) =
    (typesRest named closing ts).map (Tail.map f)
  name : ∀ t, nameRest (f t) (ts.map f) = (nameRest t ts).map (Tail.map f)
  parts : partsRest (ts.map f) = (partsRest ts).map fun rest => ⟨rest.1.map f, rest.2.map f⟩

theorem atIdent_map (ts : List Token) : atIdent (ts.map f) = atIdent ts := by
  cases ts with
  | nil => rfl
  | cons t ts => exact congrArg Option.isSome (hf.ident? t)

section Step

variable (ih : ∀ ds : List Token, ds.length < ts.length → TypesMap f ds)

include ih

theorem partsRest_map_of :
    partsRest (ts.map f) = (partsRest ts).map fun rest => ⟨rest.1.map f, rest.2.map f⟩ := by
  rcases ts with _ | ⟨u, _ | ⟨v, r⟩⟩
  · simp [partsRest]
  · simp [partsRest]
  change partsRest (f u :: f v :: r.map f) = _
  rw [partsRest, partsRest, hf.isPunct, hf.ident?]
  split
  · rw [(ih r (by simp only [List.length_cons]; omega)).name v, Option.map_map, Option.map_map]
    rfl
  · rfl

theorem nameRest_map_of (t : Token) :
    nameRest (f t) (ts.map f) = (nameRest t ts).map (Tail.map f) := by
  cases ts with
  | nil =>
    change nameRest (f t) [] = _
    rw [nameRest, nameRest]
    rfl
  | cons u r =>
    change nameRest (f t) (f u :: r.map f) = _
    rw [nameRest, nameRest, hf.isPunct]
    split
    · -- Type arguments, and what follows them.
      rw [(ih r (Nat.lt_succ_self _)).types]
      cases typesRest false ">" r with
      | none => rfl
      | some args =>
        have hparts := (ih args.rest (Nat.lt_succ_of_lt args.shorter)).parts
        change (partsRest (args.rest.map f)).map _ = ((partsRest args.rest).map _).map _
        rw [hparts]
        cases partsRest args.rest <;> rfl
    · have hparts := partsRest_map_of hf ih
      change partsRest (f u :: r.map f) = _ at hparts
      rw [hparts, Option.map_map, Option.map_map]
      rfl

theorem typeRest_map_of : typeRest (ts.map f) = (typeRest ts).map (Tail.map f) := by
  cases ts with
  | nil =>
    change typeRest [] = _
    rw [typeRest]
    rfl
  | cons t r =>
    have hstarts : startsTypeName (f t) = startsTypeName t := by
      rw [startsTypeName, startsTypeName, hf.ident?]
    have hname : (nameRest (f t) (r.map f)).map withSuffix =
        ((nameRest t r).map withSuffix).map (Tail.map f) := by
      rw [(ih r (Nat.lt_succ_self _)).name t]
      cases nameRest t r with
      | none => rfl
      | some w => exact congrArg some (withSuffix_map hf w)
    change typeRest (f t :: r.map f) = _
    rw [typeRest.eq_def, typeRest.eq_def]
    dsimp only
    rw [hf.isPunct, hstarts]
    split
    · -- A tuple.
      rw [(ih r (Nat.lt_succ_self _)).types]
      cases typesRest true ")" r with
      | none => rfl
      | some u => exact congrArg some (withSuffix_map hf (u.cons t))
    split
    · rcases r with _ | ⟨u, _ | ⟨v, r⟩⟩
      · exact hname
      · exact hname
      change (if ((f u).isPunct "::" && (f v).ident?.isSome) = true then _ else _) =
        Option.map _ (if (u.isPunct "::" && v.ident?.isSome) = true then _ else _)
      rw [hf.isPunct, hf.ident?]
      split
      · -- A name behind an alias.
        rw [(ih r (by simp only [List.length_cons]; omega)).name v]
        cases nameRest v r with
        | none => rfl
        | some w => exact congrArg some (withSuffix_map hf ((w.cons u).cons t))
      · exact hname
    · rfl

theorem typesRest_map_of (named : Bool) (closing : String) :
    typesRest named closing (ts.map f) = (typesRest named closing ts).map (Tail.map f) := by
  have htype := typeRest_map_of hf ih
  cases ht : typeRest ts with
  | none =>
    rw [ht] at htype
    rw [typesRest.eq_def, typesRest.eq_def, htype, ht]
    rfl
  | some t =>
    rw [ht] at htype
    -- A rest is known by its tokens.
    have hrest : (typesRest named closing (ts.map f)).map Tail.rest =
        ((typesRest named closing ts).map Tail.rest).map (List.map f) := by
      rw [map_rest_typesRest htype, map_rest_typesRest ht, Tail.rest_map, atIdent_map hf,
        ← List.map_drop]
      cases hafter : t.rest.drop (if named && atIdent t.rest then 1 else 0) with
      | nil => rfl
      | cons u r =>
        have hshorter : r.length < ts.length := by
          have hlength := congrArg List.length hafter
          have htail := t.shorter
          rw [List.length_drop, List.length_cons] at hlength
          omega
        rw [List.map_cons]
        dsimp only
        rw [hf.isPunct, hf.isPunct]
        split
        · rw [(ih r hshorter).types, Option.map_map, Option.map_map]
          rfl
        split
        · rfl
        · rfl
    apply Option.map_injective fun _ _ => Tail.ext_rest
    rw [hrest, Option.map_map, Option.map_map]
    rfl

end Step

theorem types_map (ts : List Token) : TypesMap f ts := by
  induction hlength : ts.length using Nat.strong_induction_on generalizing ts with
  | _ n ih =>
    -- The four call each other, but only with fewer tokens.
    have hshorter : ∀ ds : List Token, ds.length < ts.length → TypesMap f ds :=
      fun ds hds => ih ds.length (hlength ▸ hds) ds rfl
    exact ⟨typeRest_map_of hf hshorter, typesRest_map_of hf hshorter, nameRest_map_of hf hshorter,
      partsRest_map_of hf hshorter⟩

end Types

theorem typeRest_shift (ts : List Token) :
    typeRest (ts.map (Token.shift k 0)) = (typeRest ts).map (Tail.map (Token.shift k 0)) :=
  (types_map (f := Token.shift k 0) ⟨fun _ => rfl, fun _ => rfl⟩ ts).type

/-! ### Where a construct ends -/

/-- Why a construct has no end, `k` bytes further on. -/
def Endless.shift (k : Nat) : Endless → Endless
  | .atEnd => .atEnd
  | .atBracket t => .atBracket (t.shift k 0)

/-- Why a construct kept as written has no end, `k` bytes further on. -/
def RawEndless.shift (k : Nat) : RawEndless → RawEndless
  | .atEnd => .atEnd
  | .atBrace t => .atBrace (t.shift k 0)
  | .unclosed t => .unclosed (t.shift k 0)

theorem map_mapError {ε ε' α β : Type} (f : ε → ε') (g : α → β) (x : Except ε α) :
    (x.mapError f).map g = (x.map g).mapError f := by
  cases x <;> rfl

theorem countUntil_shift (angles : Bool) {stop : Token → Bool} (hstop : Token.Blind k stop)
    (depth : Nat) (ts : List Token) :
    countUntil angles stop depth (ts.map (Token.shift k 0)) =
      (countUntil angles stop depth ts).mapError (Endless.shift k) := by
  induction ts generalizing depth with
  | nil => rfl
  | cons t r ih =>
    rw [List.map_cons, countUntil.eq_def, countUntil.eq_def angles stop depth (t :: r)]
    dsimp only
    rw [hstop t, isOpen_shift, isClose_shift, Token.isPunct_shift, Token.isPunct_shift]
    split
    · rfl
    split
    · rw [ih, map_mapError]
    split
    · cases depth with
      | zero => rfl
      | succ depth =>
        dsimp only
        rw [ih, map_mapError]
    · rw [ih, map_mapError]

theorem endsAfterBrace_shift (ts : List Token) :
    endsAfterBrace (ts.map (Token.shift k 0)) = endsAfterBrace ts := by
  cases ts <;> rfl

theorem startsBranch_shift (ts : List Token) :
    startsBranch (ts.map (Token.shift k 0)) = startsBranch ts := by
  simp only [startsBranch, atWord_shift]

theorem statementLength_shift (loop : Bool) (depth : Nat) (ts : List Token) :
    statementLength loop depth (ts.map (Token.shift k 0)) =
      (statementLength loop depth ts).mapError (Endless.shift k) := by
  induction ts generalizing loop depth with
  | nil => rfl
  | cons t r ih =>
    rw [List.map_cons, statementLength, statementLength]
    simp only [isOpen_shift, isClose_shift, Token.isPunct_shift, endsAfterBrace_shift,
      startsBranch_shift, atWord_shift, ih, map_mapError,
      apply_ite (Except.mapError (Endless.shift k))]
    rfl

/-- What is left after a construct kept as written. -/
theorem map_rest_rawRest (t : Token) (r : List Token) :
    (rawRest (t :: r)).map Tail.rest =
      if t.isPunct ";" then .ok r
      else if t.isPunct "\x7d" then .error (.atBrace t)
      else if isOpen t then
        match skipGroup (t :: r) with
        | none => .error (.unclosed t)
        | some group =>
          if t.isPunct "\x7b" then
            .ok (if atPunct ";" group.rest then group.rest.drop 1 else group.rest)
          else (rawRest group.rest).map Tail.rest
      else (rawRest r).map Tail.rest := by
  have hmap : ∀ {α β γ : Type} (f : α → β) (g : β → γ) (x : Except RawEndless α),
      (x.map f).map g = x.map (g ∘ f) := by
    intro α β γ f g x
    cases x <;> rfl
  rw [rawRest.eq_def]
  dsimp only
  split
  · rfl
  split
  · rfl
  split
  · cases skipGroup (t :: r) with
    | none => rfl
    | some group =>
      dsimp only
      split
      · -- Behind the braces there is a token, perhaps the semicolon of the construct, or the end.
        split
        · rename_i u r' hrest
          have hat : atPunct ";" group.rest = u.isPunct ";" := by
            rw [hrest]
            rfl
          rw [hat]
          split
          · simp only [hrest]
            rfl
          · rfl
        · rename_i hrest
          have hat : atPunct ";" group.rest = false := by
            rw [hrest]
            rfl
          rw [hat]
          rfl
      · exact hmap _ _ _
  · exact hmap _ _ _

theorem map_rest_rawRest_shift (ts : List Token) :
    (rawRest (ts.map (Token.shift k 0))).map Tail.rest =
      (((rawRest ts).map Tail.rest).map (List.map (Token.shift k 0))).mapError
        (RawEndless.shift k) := by
  induction hlength : ts.length using Nat.strong_induction_on generalizing ts with
  | _ n ih =>
    cases ts with
    | nil =>
      change (rawRest []).map Tail.rest = _
      simp only [rawRest]
      rfl
    | cons t r =>
      have hgroup : skipGroup (t.shift k 0 :: r.map (Token.shift k 0)) =
          (skipGroup (t :: r)).map (Tail.map (Token.shift k 0)) := skipGroup_shift (t :: r)
      change (rawRest (t.shift k 0 :: r.map (Token.shift k 0))).map Tail.rest = _
      rw [map_rest_rawRest, map_rest_rawRest, isOpen_shift, Token.isPunct_shift,
        Token.isPunct_shift, Token.isPunct_shift, hgroup]
      split
      · rfl
      split
      · rfl
      split
      · cases skipGroup (t :: r) with
        | none => rfl
        | some group =>
          dsimp only [Option.map_some]
          rw [Tail.rest_map]
          split
          · -- A construct that ends with its braces.
            rw [atPunct_shift, ← List.map_drop, ← apply_ite (List.map (Token.shift k 0))]
            rfl
          · exact ih group.rest.length (hlength ▸ group.shorter) group.rest rfl
      · exact ih r.length (hlength ▸ Nat.lt_succ_self _) r rfl

theorem rawRest_shift (ts : List Token) :
    rawRest (ts.map (Token.shift k 0)) =
      ((rawRest ts).map (Tail.map (Token.shift k 0))).mapError (RawEndless.shift k) := by
  -- A rest is known by its tokens.
  have hrest := map_rest_rawRest_shift (k := k) ts
  generalize rawRest (ts.map (Token.shift k 0)) = moved at hrest ⊢
  generalize rawRest ts = kept at hrest ⊢
  cases moved with
  | error e' =>
    cases kept with
    | error e => exact congrArg Except.error (Except.error.inj hrest)
    | ok t => cases hrest
  | ok t' =>
    cases kept with
    | error e => cases hrest
    | ok t => exact congrArg Except.ok (Tail.ext_rest (Except.ok.inj hrest))

end Lookahead

/-! ### Decisions of the grammar -/

namespace Grammar

open ClassSugar.Lookahead

variable {k : Nat}

theorem afterAttributes?_shift (ts : List Token) :
    afterAttributes? (ts.map (Token.shift k 0)) =
      (afterAttributes? ts).map (List.map (Token.shift k 0)) := by
  fun_induction afterAttributes? ts with
  | case1 ts hat group hgroup ih =>
    rw [afterAttributes?, atPunct_shift, if_pos hat, skipGroup_shift, hgroup]
    exact ih
  | case2 ts hat hgroup =>
    rw [afterAttributes?, atPunct_shift, if_pos hat, skipGroup_shift, hgroup]
    rfl
  | case3 ts hat =>
    rw [afterAttributes?, atPunct_shift, if_neg hat]
    rfl

theorem startsDeclarationWords_shift (ext : Extensions) (ts : List Token) :
    startsDeclarationWords ext (ts.map (Token.shift k 0)) = startsDeclarationWords ext ts := by
  induction ts with
  | nil => rfl
  | cons t r ih =>
    simp only [List.map_cons, startsDeclarationWords, Token.ident?_shift, atWord_shift, ih]

@[simp] theorem isDeclarationStart_shift (ext : Extensions) (ts : List Token) :
    isDeclarationStart ext (ts.map (Token.shift k 0)) = isDeclarationStart ext ts := by
  rw [isDeclarationStart, isDeclarationStart, afterAttributes?_shift]
  cases afterAttributes? ts with
  | none => rfl
  | some r => exact startsDeclarationWords_shift ext r

theorem startsSignature_shift (ts : List Token) :
    startsSignature (ts.map (Token.shift k 0)) = startsSignature ts := by
  rw [startsSignature, startsSignature, typeRest_shift]
  cases typeRest ts with
  | none => rfl
  | some type => exact startsWith_shift (fun _ => rfl) type.rest

theorem startsConstructor_shift (ts : List Token) :
    startsConstructor (ts.map (Token.shift k 0)) = startsConstructor ts := by
  rw [startsConstructor, startsConstructor, skipGroup_shift]
  cases skipGroup ts with
  | none => rfl
  | some group =>
    dsimp only [Option.map_some]
    rw [Tail.rest_map, atPunct_shift, atPunct_shift, atPunct_shift]

@[simp] theorem isStatementStart_shift (ext : Extensions) (className : String) (ts : List Token) :
    isStatementStart ext className (ts.map (Token.shift k 0)) =
      isStatementStart ext className ts := by
  cases ts with
  | nil => rfl
  | cons t r =>
    have hmodifier : startsWith (fun u => u.ident?.any memberModifiers.contains)
        (r.map (Token.shift k 0)) = startsWith (fun u => u.ident?.any memberModifiers.contains) r :=
      startsWith_shift (fun _ => rfl) r
    -- Some tests look at the whole list and others at what follows the first token.
    have hdeclaration := isDeclarationStart_shift (k := k) ext (t :: r)
    have hsignature := startsSignature_shift (k := k) (t :: r)
    rw [List.map_cons] at hdeclaration hsignature ⊢
    simp only [isStatementStart, Token.ident?_shift, Token.isPunct_shift, hmodifier, hdeclaration,
      hsignature, startsConstructor_shift, atPunct_shift]

@[simp] theorem modifierCount_shift (ts : List Token) :
    modifierCount (ts.map (Token.shift k 0)) = modifierCount ts := by
  induction ts with
  | nil => rfl
  | cons t r ih =>
    simp only [List.map_cons, modifierCount, Token.ident?_shift, atIdent_shift, ih]

theorem accessors?_shift (modifiers : List String) (ts : List Token) :
    accessors? modifiers (ts.map (Token.shift k 0)) = accessors? modifiers ts := by
  fun_induction accessors? modifiers ts with
  | case1 modifiers h => rw [List.map_nil, accessors?, if_pos h]
  | case2 modifiers h => rw [List.map_nil, accessors?, if_neg h]
  | case3 modifiers t r haccess ih =>
    rw [List.map_cons, accessors?.eq_def]
    dsimp only
    rw [Token.ident?_shift, if_pos haccess]
    exact ih
  | case4 modifiers t haccess =>
    rw [List.map_cons, accessors?.eq_def]
    dsimp only
    rw [Token.ident?_shift, if_neg haccess]
    rfl
  | case5 modifiers t haccess u r haccessor ih =>
    rw [List.map_cons, List.map_cons, accessors?.eq_def]
    dsimp only
    rw [Token.ident?_shift, if_neg haccess, Token.isPunct_shift, Token.isEmpty_leading_shift,
      if_pos haccessor, ih]
    rfl
  | case6 modifiers t haccess u r haccessor =>
    rw [List.map_cons, List.map_cons, accessors?.eq_def]
    dsimp only
    rw [Token.ident?_shift, if_neg haccess, Token.isPunct_shift, Token.isEmpty_leading_shift,
      if_neg haccessor]

theorem propertyBodyOf_shift {group : List Token} (h : group ≠ []) :
    propertyBodyOf (group.map (Token.shift k 0)) = (propertyBodyOf group).shift k := by
  have hlast : (group.map (Token.shift k 0)).getLast? = some ((group.getLast h).shift k 0) := by
    rw [List.getLast?_map, List.getLast?_eq_some_getLast h, Option.map_some]
  rw [propertyBodyOf, propertyBodyOf, ← List.map_drop, ← List.map_dropLast, accessors?_shift, hlast,
    List.getLast?_eq_some_getLast h, Verbatim.ofTokens_shift k h]
  split
  · rename_i a as closing haccessors hclosing
    cases hclosing
    rw [haccessors, Token.isEmpty_leading_shift]
    dsimp only
    split
    · rfl
    · rfl
  · rename_i hnone
    split
    · rename_i a as closing haccessors hclosing
      exact absurd rfl (hnone a as _ haccessors)
    · rfl

theorem splitArguments_shift (ts : List Token) :
    splitArguments (ts.map (Token.shift k 0)) = (splitArguments ts).map
      fun split => (split.1.map (Token.shift k 0), split.2.1.shift k 0,
        split.2.2.map (Token.shift k 0)) := by
  induction ts with
  | nil => rfl
  | cons t r ih =>
    have hgroup : (skipGroup (t.shift k 0 :: r.map (Token.shift k 0))).any (·.rest.isEmpty) =
        (skipGroup (t :: r)).any (·.rest.isEmpty) := by
      have hskip : skipGroup (t.shift k 0 :: r.map (Token.shift k 0)) =
          (skipGroup (t :: r)).map (Tail.map (Token.shift k 0)) := skipGroup_shift (t :: r)
      rw [hskip, Option.any_map]
      congr 1
      funext group
      exact List.isEmpty_map
    rw [List.map_cons, splitArguments, splitArguments, Token.isPunct_shift, hgroup, ih]
    split
    · rw [← List.map_dropLast]
      rfl
    · rw [Option.map_map, Option.map_map]
      rfl

theorem isAccessClause_shift (ts : List Token) :
    isAccessClause (ts.map (Token.shift k 0)) = isAccessClause ts := by
  rw [isAccessClause, isAccessClause, List.isEmpty_map, List.all_map]
  rfl

/-- The entry is the same; only an error tells where it stands. -/
theorem headerEntryOf_shift (ts : List Token) :
    headerEntryOf (ts.map (Token.shift k 0)) =
      (headerEntryOf ts).mapError (SyntaxError.shift k) := by
  have hclosing : (ts.map (Token.shift k 0)).getLast?.any (·.isPunct ")") =
      ts.getLast?.any (·.isPunct ")") := by
    rw [List.getLast?_map, Option.any_map]
    rfl
  rw [headerEntryOf, headerEntryOf, hclosing, splitArguments_shift]
  by_cases hargs : ts.getLast?.any (·.isPunct ")") = true
  · rw [if_pos hargs, if_pos hargs]
    cases hsplit : splitArguments ts with
    | none =>
      dsimp only [Option.map_none]
      rw [Token.join_shift]
      rfl
    | some split =>
      obtain ⟨before, opening, args⟩ := split
      -- The parenthesis that opens the arguments stands in the span of the error.
      have hspan : ts.drop before.length ≠ [] := by
        obtain ⟨-, closing, hts⟩ := exists_of_splitArguments hsplit
        simp [hts]
      dsimp only [Option.map_some]
      rw [isAccessClause_shift, List.isEmpty_map, Token.join_shift, Token.spell_shift,
        List.length_map, ← List.map_drop, Token.spanOf_shift k hspan]
      split
      · split
        · rfl
        · rfl
      · rfl
  · rw [if_neg hargs, if_neg hargs]
    dsimp only
    rw [Token.join_shift]
    rfl

@[simp] theorem isUsingStart_shift (ts : List Token) :
    isUsingStart (ts.map (Token.shift k 0)) = isUsingStart ts := by
  rw [isUsingStart, isUsingStart, atWord_shift, ← List.map_drop, ← apply_ite]
  simp only [← List.map_drop, atPunct_shift, atWord_shift]

@[simp] theorem isTargetedAttribute_shift (ts : List Token) :
    isTargetedAttribute (ts.map (Token.shift k 0)) = isTargetedAttribute ts := by
  simp only [isTargetedAttribute, ← List.map_drop, atPunct_shift, atIdent_shift]

end Grammar

end ClassSugar
