import ClassSugar.Grammar.CompilationUnit
import ClassSugar.Proofs.BodyParts
import ClassSugar.Proofs.SteadyGrammar

/-!
# Members, declarations and files are steady

The readers of members, declarations and files, on any sequence of tokens. The two that call
themselves, `declaration` and `items`, take a token before they do so, and may assume of their calls
what is shown of them.

For a file that is read this gives, beside the progress of its readers,

* `CompilationUnit.tame_of_parse`: the tree of a paired source is tame;
* `CompilationUnit.parse_markFree`: a grammar that does not understand null assertions never reads
  one. The marks are refused as part of a parameter, and the attribute is kept like any other.
-/

namespace ClassSugar

open Reader

/-! ### Drawn from tokens -/

/-- What holds of a declaration, the types nested in it apart: its code is code of the tokens, it is
tame if they are, and no parameter is asserted without an extension for it. -/
structure Declaration.Drawn (ext : Extensions) (ts : List Token) (W : Token → Prop)
    (d : Declaration) : Prop where
  code : ∀ v ∈ d.fragments, v.IsCode ts
  tame : Token.Tames W → d.Tame
  unmarked : ext.nullAssertion = false → d.MarkFree

/-- The same of an item of a class body, with all types nested in it. -/
structure BodyItem.Drawn (ext : Extensions) (ts : List Token) (W : Token → Prop) (i : BodyItem) :
    Prop where
  code : ∀ v ∈ i.fragments, v.IsCode ts
  tame : Token.Tames W → i.Tame
  unmarked : ext.nullAssertion = false → ∀ m, i = .member m →
    ∀ p ∈ m.params, p.nullAssertion = none
  below : ∀ d, i = .member (.type d) → d.Everywhere (Declaration.Drawn ext ts W)

/-- The same of an item of a file, with all declarations in it. -/
structure Item.Drawn (ext : Extensions) (ts : List Token) (W : Token → Prop) (i : Item) : Prop where
  everywhere : i.Everywhere (Declaration.Drawn ext ts W)
  tame : Token.Tames W → i.Tame

namespace Grammar

variable {k : Nat} {ext : Extensions} {ts : List Token} {W : Token → Prop} {c : Cursor}

/-! ### Members -/

/-- The two forms of a body give two constructors, which differ in their statements only. -/
theorem drawn_constructor {start : MemberStart} {k : Constructor}
    (hstart : Token.Tames W → ∀ w ∈ start.modifiers, Clean w)
    (hmodifiers : k.modifiers = start.modifiers) (hname : ∃ t, W t ∧ t.ident? = some k.name)
    (hparams : ∀ p ∈ k.params, p.Drawn ext W) (hbody : ∀ s ∈ k.body.stmts, s.Drawn ts W) :
    (BodyItem.member (.constructor k)).Drawn ext ts W where
  code := List.forall_mem_flatMap.mpr fun s hs => (hbody s hs).code
  tame hW := ⟨hmodifiers ▸ hstart hW, clean_of_word hname hW, fun p hp => (hparams p hp).tame hW,
    fun s hs => (hbody s hs).tame hW⟩
  unmarked hoff := by
    rintro _ ⟨⟩ p hp
    exact (hparams p hp).unmarked hoff
  below := nofun

section Start

variable {start : MemberStart} (hstart : Token.Tames W → ∀ w ∈ start.modifiers, Clean w)
include hstart

theorem constructor_steady (hposition : start.position ≤ c.position) :
    Steady k ts W (Option.map (Member.shift k)) (constructor ext start) (constructor ext start) c
      fun found c' =>
        c.position < c'.position ∧ ∀ m ∈ found, (BodyItem.member m).Drawn ext ts W := by
  refine .next .expectIdent fun name c₁ _ _ hname => ?_
  refine .bind (parameters_steady ext) fun params c₂ _ hle₂ hparams => ?_
  refine .next constructorCall_steady fun call c₃ _ hle₃ _ => ?_
  refine .atPunct _ (.ite (fun _ => ?_) fun _ => ?_)
  · refine .bind block_steady fun b c₄ _ hle₄ hblock => ?_
    refine .bind (.since (by omega)) ?_
    rintro run _ - - ⟨rfl, -, hne, -⟩
    refine .pure ?_ ⟨by omega, ?_⟩
    · rw [Token.spanOf_shift k (hne (by omega))]
      rfl
    · rintro m ⟨⟩
      exact drawn_constructor hstart rfl hname.2 hparams.2 hblock
  refine .next (.eatPunct _) ?_
  rintro _ c₄ - - (⟨rfl, hpos₄⟩ | ⟨rfl, rfl, -⟩)
  · refine .bind expression_steady fun value c₅ _ hle₅ hvalue => ?_
    refine .bind (.since (by omega)) ?_
    rintro run _ - - ⟨rfl, -, hne, -⟩
    refine .pure ?_ ⟨by omega, ?_⟩
    · rw [Token.spanOf_shift k (hne (by omega))]
      rfl
    · rintro m ⟨⟩
      refine drawn_constructor hstart rfl hname.2 hparams.2 (List.forall_mem_singleton.mpr ?_)
      exact ⟨List.forall_mem_singleton.mpr hvalue.2.1, hvalue.2.2⟩
  · exact .pure rfl ⟨by omega, nofun⟩

section Typed

variable (hposition : start.position < c.position)
include hposition

theorem method_steady (returnType : TypeName) (name : String) :
    Steady k ts W (Member.shift k) (method ext start returnType name)
      (method ext start returnType name) c fun m _ => (BodyItem.member m).Drawn ext ts W := by
  refine .next typeParams_steady fun types _ _ _ _ => ?_
  refine .bind (parameters_steady ext) fun params _ _ _ hparams => ?_
  refine .next (constraints_steady fun _ => rfl) fun clauses _ _ _ _ => ?_
  refine .bind methodBody_steady fun body _ _ _ hbody => ?_
  refine .bind (.since (by omega)) ?_
  rintro run _ - - ⟨rfl, -, hne, -⟩
  refine .pure ?_ ⟨hbody.1, fun hW => ?_, ?_, nofun⟩
  · rw [Token.spanOf_shift k (hne (by omega))]
    rfl
  · exact ⟨hstart hW, fun p hp => (hparams.2 p hp).tame hW, hbody.2 hW⟩
  · rintro hoff _ ⟨⟩ p hp
    exact (hparams.2 p hp).unmarked hoff

/-- Members without a parameter list have no parameter that could be marked. -/
theorem property_steady (ty : TypeName) {name : String}
    (hname : Token.Tames W → Paired name.toList) (body : PropertyBody)
    (initializer : Option Verbatim) (hcode : ∀ v ∈ body.fragments, v.IsCode ts)
    (htame : Token.Tames W → body.Tame)
    (hinitializer : ∀ v ∈ initializer, v.IsCode ts ∧ (Token.Tames W → v.Tame)) :
    Steady k ts W (Member.shift k) (property start ty name body initializer)
      (property start ty name (body.shift k) (initializer.map (Verbatim.shift k))) c fun m _ =>
      (BodyItem.member m).Drawn ext ts W := by
  refine .bind (.since (by omega)) ?_
  rintro run _ - - ⟨rfl, -, hne, -⟩
  refine .pure ?_ ⟨?_, fun hW => ?_, ?_, nofun⟩
  · rw [Token.spanOf_shift k (hne hposition)]
    rfl
  · refine List.forall_mem_append.mpr ⟨hcode, fun v hv => ?_⟩
    exact (hinitializer v (Option.mem_toList.mp hv)).1
  · exact ⟨hstart hW, hname hW, htame hW, fun v hv => (hinitializer v hv).2 hW⟩
  · rintro - _ ⟨⟩
    exact nofun

theorem typedMember_steady (ty : TypeName) {name : String}
    (hname : Token.Tames W → Paired name.toList) :
    Steady k ts W (Member.shift k) (typedMember ext start ty name) (typedMember ext start ty name) c
      fun m _ => (BodyItem.member m).Drawn ext ts W := by
  refine .ahead ?_
  rw [Lookahead.atPunct_shift, Lookahead.atPunct_shift, Lookahead.atPunct_shift]
  refine .ite (fun _ => method_steady hstart hposition ty name) fun _ => ?_
  refine .ite (fun _ => ?_) fun _ => ?_
  · -- A property with a group in braces, and perhaps an initializer behind it.
    refine .bind propertyBody_steady fun body c₁ _ hle₁ hbody => ?_
    have hcode : ∀ v ∈ body.fragments, v.IsCode ts := fun v hv => (hbody.1 v hv).2
    refine .next (.eatPunct _) fun found c₂ _ hle₂ _ => ?_
    have hvalue : Steady k ts W (Option.map (Verbatim.shift k)) (some <$> expression)
        (some <$> expression) c₂ fun found _ =>
          ∀ v ∈ found, v.IsCode ts ∧ (Token.Tames W → v.Tame) := by
      refine .map (expression_steady.mono ?_) fun _ => rfl
      rintro value _ - - hvalue _ ⟨⟩
      exact hvalue.2
    refine .ite_bind (fun _ => hvalue) (fun _ => .pure rfl nofun) fun found c₃ _ hle₃ hvalue => ?_
    exact property_steady hstart (by omega) ty hname body found hcode hbody.2 hvalue
  refine .next (.eatPunct _) ?_
  rintro _ c₂ - - (⟨rfl, hpos⟩ | ⟨rfl, rfl, -⟩)
  · refine .bind expression_steady fun value _ _ _ hvalue => ?_
    refine property_steady hstart (by omega) ty hname (.expression value) none ?_ hvalue.2.2 nofun
    exact List.forall_mem_singleton.mpr hvalue.2.1
  · refine .bind fieldInitializer_steady fun found _ _ _ hfound => ?_
    refine .bind (.since (by omega)) ?_
    rintro run _ - - ⟨rfl, -, hne, -⟩
    refine .pure ?_ ⟨fun v hv => ?_, fun hW => ?_, ?_, nofun⟩
    · rw [Token.spanOf_shift k (hne (by omega))]
      rfl
    · exact (hfound v (Option.mem_toList.mp hv)).1
    · exact ⟨hstart hW, hname hW, fun v hv => (hfound v hv).2 hW⟩
    · rintro - _ ⟨⟩
      exact nofun

end Typed

end Start

theorem member_steady (className : String) :
    Steady k ts W (Option.map (Member.shift k)) (member ext className) (member ext className) c
      fun found c' =>
        ∀ m ∈ found, c.position < c'.position ∧ (BodyItem.member m).Drawn ext ts W := by
  refine .position ?_
  refine .next attributes_steady fun attributes c₁ _ hle₁ _ => ?_
  refine .ahead ?_
  rw [modifierCount_shift]
  refine .bind (.take _) ?_
  rintro _ c₂ - hle₂ ⟨-, rfl, -, hall⟩
  have hstart : Token.Tames W →
      ∀ w ∈ (c₁.ahead.take (modifierCount c₁.ahead)).map Token.text, Clean w := by
    intro hW
    refine List.forall_mem_map.mpr fun t ht => (hW t (hall t ht)).clean_text ?_
    exact isSome_ident?_of_modifierCount c₁.ahead t ht
  dsimp only
  rw [Token.map_text_shift]
  refine .ahead ?_
  have hraw : ∀ ts : List Token,
      Lookahead.startsWith (fun t => t.ident?.any rawMemberWords.contains)
        (ts.map (Token.shift k 0)) =
      Lookahead.startsWith (fun t => t.ident?.any rawMemberWords.contains) ts :=
    Lookahead.startsWith_shift fun _ => rfl
  rw [Lookahead.atPunct_shift, hraw, Lookahead.atWord_shift, ← List.map_drop,
    Lookahead.atPunct_shift]
  refine .ite (fun _ => .pure rfl nofun) fun _ => ?_
  refine .ite (fun _ => ?_) fun _ => ?_
  · refine (constructor_steady hstart (by dsimp only; omega)).mono fun _ _ _ _ hfound m hm => ?_
    exact ⟨by omega, hfound.2 m hm⟩
  -- A member of another shape is none, so there is no token that it would have to take.
  refine .next typeName_steady fun ty c₃ _ hle₃ hlt₃ => ?_
  refine .ahead ?_
  rw [Lookahead.atWord_shift, Lookahead.atWord_shift]
  refine .ite (fun _ => .pure rfl nofun) fun _ => ?_
  refine .next memberName_steady fun name c₄ _ _ hname => ?_
  refine .map ((typedMember_steady hstart (by dsimp only; omega) ty hname.2).mono ?_) fun _ => rfl
  rintro m c' - hle hm _ ⟨⟩
  exact ⟨by omega, hm⟩

/-! ### Declarations -/

/-- The arguments of a base class stand in the entry, behind the parenthesis that opens them. -/
theorem headerEntryOf_args {run : List Token} {i j : Nat} {name args : String}
    (hrun : Token.IsRange ts i j run)
    (h : headerEntryOf run = .ok (.base ⟨name, some args⟩)) :
    ∃ k l, i < k ∧ l < j ∧ Token.SpelledFrom ts k l args := by
  cases standsOn_of_headerEntryOf h with
  | arguments hopening hclosing =>
    have hlength := hrun.length_eq
    have hinner := hrun.part
    simp only [List.length_append, List.length_singleton] at hlength hinner
    exact ⟨_, _, by omega, by omega, hinner.spelledFrom⟩

theorem cause_headerEntryOf {run : List Token} {e : SyntaxError}
    (h : headerEntryOf run = .error e) : e.cause ≠ .stalled := by
  revert h
  fun_cases headerEntryOf run with
  | case3 =>
    intro h hcause
    cases h
    cases hcause
  | _ =>
    intro h
    cases h

/-- The arguments that an entry keeps are those of a range of tokens. -/
def HeaderEntry.Spelled (ts : List Token) (e : HeaderEntry) : Prop :=
  ∀ name args, e = .base ⟨name, some args⟩ → ∃ i j, Token.SpelledFrom ts i j args

theorem headerEntry_steady :
    Steady.Round k ts W id headerEntry headerEntry (HeaderEntry.Spelled ts) c := by
  refine .bind (.takeUntil _ fun _ => rfl) ?_
  rintro run c₁ - - ⟨hrange, -, -, -⟩
  rw [List.isEmpty_map, headerEntryOf_shift]
  refine .ite (fun _ => .expected _) fun hne => ?_
  cases hentry : headerEntryOf run with
  | error e => exact .throw (cause_headerEntryOf hentry)
  | ok entry =>
    have hspelled : ∀ e ∈ [entry], HeaderEntry.Spelled ts e := by
      intro e he name args heq
      rw [List.mem_singleton.mp he] at heq
      rw [heq] at hentry
      obtain ⟨i, j, -, -, hargs⟩ := headerEntryOf_args hrange hentry
      exact ⟨i, j, hargs⟩
    refine .next (.eatPunct _) fun more c₂ _ hle _ => ?_
    have hlt := hrange.lt_of_ne_nil (mt List.isEmpty_iff.mpr hne)
    exact .pure rfl ⟨hspelled, fun _ => by omega⟩

theorem headerEntries_steady :
    Steady k ts W id headerEntries headerEntries c fun _ _ => True := by
  refine .next (.eatPunct _) ?_
  rintro _ c₁ - - (⟨rfl, -⟩ | ⟨rfl, -, -⟩)
  · rw [← List.map_id_fun]
    exact (Steady.rounds fun _ _ => headerEntry_steady).mono fun _ _ _ _ _ => trivial
  · exact .pure rfl trivial

/-- What holds of a declaration that is read from one cursor up to another. -/
structure ReadBetween (ext : Extensions) (ts : List Token) (W : Token → Prop) (c : Cursor)
    (d : Declaration) (c' : Cursor) : Prop where
  moves : c.position < c'.position
  source : d.source.CutFrom ts c.position c'.position
  drawn : d.Everywhere (Declaration.Drawn ext ts W)

/-- A member kept as written holds no code. -/
theorem bodyItem_raw_steady {start : Cursor} (hle : start.position ≤ c.position) :
    let raw : Reader BodyItem := do return .member (.raw (← rawItem))
    Steady k ts W (BodyItem.shift k) raw raw c fun i c' =>
      start.position < c'.position ∧ i.Drawn ext ts W := by
  refine .bind rawItem_steady fun code c₁ _ _ hcode => ?_
  refine .pure rfl ⟨Nat.lt_of_le_of_lt hle hcode.1, nofun, hcode.2.2, ?_, nofun⟩
  rintro - _ ⟨⟩
  exact nofun

section Nested

variable {nestedType nestedType' : Reader Declaration}

theorem bodyItem_steady (className : String)
    (h : Steady k ts W (Declaration.shift k) nestedType nestedType' c (ReadBetween ext ts W c)) :
    Steady k ts W (BodyItem.shift k) (bodyItem ext nestedType className)
      (bodyItem ext nestedType' className) c fun i c' =>
      c.position < c'.position ∧ i.Drawn ext ts W := by
  refine .ahead ?_
  rw [isStatementStart_shift, isDeclarationStart_shift]
  refine .ite (fun _ => ?_) fun _ => ?_
  · refine .bind statement_steady ?_
    rintro code c₁ - - ⟨⟨n, -, hpos, hposition⟩, -, hcode, htame⟩
    exact .pure rfl ⟨by omega, List.forall_mem_singleton.mpr hcode, htame, nofun, nofun⟩
  refine .ite (fun _ => ?_) fun _ => ?_
  · refine .bind h fun d c₁ _ _ hd => .pure rfl ⟨hd.moves, nofun, fun hW => ?_, ?_, ?_⟩
    · obtain ⟨hhere, -⟩ := hd.drawn
      exact (hhere.tame hW).source
    · rintro - _ ⟨⟩
      exact nofun
    · rintro d' ⟨⟩
      exact hd.drawn
  refine .bind (.attempt (member_steady className)) ?_
  rintro (_ | m) c₁ - hle (⟨hnone, -⟩ | hfound)
  -- Without a member of a known shape the tokens are taken again as they stand.
  · exact bodyItem_raw_steady hle
  · exact bodyItem_raw_steady hle
  · cases hnone
  · exact .pure rfl (hfound m rfl)

theorem bodyRound_steady (className : String)
    (h : ∀ c', c.position ≤ c'.position →
      Steady k ts W (Declaration.shift k) nestedType nestedType' c' (ReadBetween ext ts W c')) :
    Steady.Round k ts W (BodyItem.shift k) (bodyRound ext nestedType className)
      (bodyRound ext nestedType' className) (BodyItem.Drawn ext ts W) c := by
  refine .bind comments_steady ?_
  rintro comments c₁ - hle₁ hfound
  have hcomments : ∀ i ∈ comments.map BodyItem.comment, i.Drawn ext ts W :=
    List.forall_mem_map.mpr fun v hv => ⟨nofun, hfound v hv, nofun, nofun⟩
  dsimp only
  rw [map_map_shift (BodyItem.shift k) fun _ => rfl]
  refine .atPunct _ (.ite (fun _ => .round_ended rfl hcomments) fun _ => ?_)
  refine .atEnd (.ite (fun _ => .expected _) fun _ => ?_)
  refine .next (.eatPunct _) ?_
  rintro _ c₂ - - (⟨rfl, hpos⟩ | ⟨rfl, rfl, -⟩)
  · exact .round_goes_on rfl hcomments (by omega)
  -- A nested declaration starts where the round is, and that is all the item needs to know.
  refine .bind (bodyItem_steady className (h _ hle₁)) fun item c₃ _ _ hitem => ?_
  refine .round_goes_on ?_ (List.forall_mem_append.mpr ⟨hcomments, ?_⟩) (by omega)
  · rw [List.map_append]
    rfl
  · exact List.forall_mem_singleton.mpr hitem.2

variable (h : ∀ c', c.position < c'.position →
  Steady k ts W (Declaration.shift k) nestedType nestedType' c' (ReadBetween ext ts W c'))
include h

theorem classBody_steady (className : String) :
    Steady k ts W (List.map (BodyItem.shift k)) (classBody ext nestedType className)
      (classBody ext nestedType' className) c fun body c' =>
      c.position < c'.position ∧ ∀ i ∈ body, i.Drawn ext ts W := by
  refine .next (.eatPunct _) ?_
  rintro _ c₁ - - (⟨rfl, hpos⟩ | ⟨rfl, rfl, -⟩)
  · exact .pure rfl ⟨by omega, nofun⟩
  -- The opening brace is taken before any of the items.
  refine .next (.expectPunct _) fun _ c₂ _ _ hpos => ?_
  have hrounds := Steady.rounds (c := c₂) fun c₃ hle =>
    bodyRound_steady (c := c₃) className fun c' hle' => h c' (by omega)
  refine .bind hrounds fun body _ _ _ hbody => ?_
  refine .next (.expectPunct _) fun _ _ _ _ _ => ?_
  exact .next (.eatPunct _) fun _ _ _ _ _ => .pure rfl ⟨by omega, hbody⟩

end Nested

theorem declarationKind_steady :
    Steady k ts W id declarationKind declarationKind c fun _ c' => c.position < c'.position := by
  refine .next .expectIdent fun word c₁ _ _ hword => ?_
  refine .ite (fun _ => .pure rfl (by omega)) fun _ => ?_
  refine .ite (fun _ => ?_) fun _ => ?_
  · exact .next (.eatWord _) fun _ c₂ _ hle _ => .pure rfl (by omega)
  · exact .next (.expectWord _) fun _ c₂ _ hle _ => .pure rfl (by omega)

theorem someParameters_steady :
    Steady k ts W (Option.map (List.map (Parameter.shift k))) (some <$> parameters ext)
      (some <$> parameters ext) c fun params _ => ∀ p ∈ params.getD [], p.Drawn ext W :=
  .map ((parameters_steady ext).mono fun _ _ _ _ h => h.2) fun _ => rfl

/-- The keyword of a declaration stands before its body, so a nested one is read further on. -/
theorem declarationWith_steady {nestedType nestedType' : Reader Declaration}
    (h : ∀ c', c.position < c'.position →
      Steady k ts W (Declaration.shift k) nestedType nestedType' c' (ReadBetween ext ts W c')) :
    Steady k ts W (Declaration.shift k) (declarationWith ext nestedType)
      (declarationWith ext nestedType') c (ReadBetween ext ts W c) := by
  refine .position ?_
  refine .next attributes_steady fun attributes c₁ _ hle₁ _ => ?_
  refine .next (.takeWords _) fun words c₂ _ hle₂ hwords => ?_
  refine .next declarationKind_steady fun kind c₃ _ _ hlt₃ => ?_
  refine .next .expectIdent fun name c₄ _ hle₄ hname => ?_
  refine .next typeParams_steady fun types c₅ _ hle₅ htypes => ?_
  refine .atPunct _ (.ite_bind (fun _ => someParameters_steady) (fun _ => .pure rfl nofun) ?_)
  intro params c₆ _ hle₆ hparams
  refine .next headerEntries_steady fun entries c₇ _ hle₇ _ => ?_
  refine .next (constraints_steady fun _ => rfl) fun clauses c₈ _ hle₈ _ => ?_
  have hnested := fun c' (hlt : c₈.position < c'.position) => h c' (by omega)
  refine .bind (classBody_steady hnested name) fun body c₉ _ hle₉ hbody => ?_
  -- The source is all that was taken since the declaration started.
  refine .bind (.since (by omega)) ?_
  rintro run _ - - ⟨rfl, hrange, hne, hall⟩
  refine .pure ?_ ⟨by omega, hrange.cutFrom, ⟨?_, fun hW => ?_, fun hoff => ⟨?_, ?_⟩⟩, ?_⟩
  · rw [Verbatim.ofTokens_shift k (hne (by omega)), Declaration.shift, BodyItem.shiftAll_eq_map]
    rfl
  · exact List.forall_mem_flatMap.mpr fun i hi => (hbody.2 i hi).code
  · exact {
      modifiers := fun w hw => hW.clean_of_words hwords w (List.mem_of_mem_filter hw)
      name := clean_of_word hname.2 hW
      typeParams := htypes hW
      params := fun p hp => (hparams p hp).tame hW
      source := Verbatim.tame_of_forall hall hW
      body := fun i hi => (hbody.2 i hi).tame hW }
  · exact fun p hp => (hparams p hp).unmarked hoff
  · exact fun m hm => (hbody.2 _ (Declaration.mem_members.mp hm)).unmarked hoff m rfl
  · exact fun d hd => (hbody.2 _ hd).below d rfl

theorem declaration_steady (ext : Extensions) :
    Steady k ts W (Declaration.shift k) (declaration ext) (declaration ext) c
      (ReadBetween ext ts W c) :=
  .nested (fun _ _ _ _ h => declarationWith_steady (h ())) () c

/-! ### Files -/

theorem usingDirective_steady :
    Steady k ts W id usingDirective usingDirective c fun _ c' => c.position < c'.position := by
  refine .next (.eatWord _) fun isGlobal c₁ _ hle₁ _ => ?_
  refine .next .skip fun _ c₂ _ hle₂ _ => ?_
  refine .bind (.takeUntil _ fun _ => rfl) ?_
  rintro run c₃ - hle₃ ⟨-, -, hahead, -⟩
  -- The words in front are not looked at, but the semicolon is there to be taken.
  refine .next (.skip_of_ahead_ne hahead) fun _ c₄ _ _ hpos => .pure ?_ (by omega)
  rw [Token.join_shift]
  rfl

section Scopes

variable {items items' : Bool → Reader (List Item)}
  (h : ∀ inBraces c', c.position < c'.position →
    Steady k ts W (List.map (Item.shift k)) (items inBraces) (items' inBraces) c' fun found _ =>
      ∀ i ∈ found, i.Drawn ext ts W)
include h

/-- The keyword of a namespace stands before its items. -/
theorem namespaceWith_steady (hstart : Lookahead.atWord "namespace" c.ahead = true) :
    Steady k ts W (Item.shift k) (namespaceWith items) (namespaceWith items') c fun i c' =>
      c.position < c'.position ∧ (∀ v, i ≠ .raw v) ∧ i.Drawn ext ts W := by
  refine .next (.skip_of_startsWith hstart) fun _ c₁ _ _ hpos => ?_
  refine .bind (.takeUntil _ fun _ => rfl) fun run c₂ _ hle₂ _ => ?_
  dsimp only
  rw [Token.join_shift]
  refine .next (.eatPunct _) ?_
  have hscope : ∀ (fileScoped : Bool) (found : List Item) (v : Verbatim),
      Item.scope (Token.join run) fileScoped found ≠ .raw v := nofun
  rintro _ c₃ - hle₃ (⟨rfl, -⟩ | ⟨rfl, rfl, -⟩)
  · refine .bind (h false c₃ (by omega)) fun found c₄ _ hle₄ hfound => .pure ?_ ?_
    · rw [Item.shift, Item.shiftAll_eq_map]
    · exact ⟨by omega, hscope _ _, .scope fun i hi => (hfound i hi).everywhere,
        fun hW => .scope fun i hi => (hfound i hi).tame hW⟩
  · refine .next (.expectPunct _) fun _ c₄ _ hle₄ _ => ?_
    refine .bind (h true c₄ (by omega)) fun found c₅ _ hle₅ hfound => ?_
    refine .next (.expectPunct _) fun _ c₆ _ hle₆ _ => .pure ?_ ?_
    · rw [Item.shift, Item.shiftAll_eq_map]
    · exact ⟨by omega, hscope _ _, .scope fun i hi => (hfound i hi).everywhere,
        fun hW => .scope fun i hi => (hfound i hi).tame hW⟩

theorem item_steady :
    Steady k ts W (Item.shift k) (item ext items) (item ext items') c fun i c' =>
      c.position < c'.position ∧ (∀ v, i = .raw v → v.CutFrom ts c.position c'.position) ∧
        i.Drawn ext ts W := by
  refine .ahead ?_
  rw [isUsingStart_shift, Lookahead.atWord_shift, isTargetedAttribute_shift,
    isDeclarationStart_shift]
  refine .ite (fun _ => ?_) fun _ => ?_
  · refine .next usingDirective_steady fun u c₁ _ _ hlt => ?_
    exact .pure rfl ⟨hlt, nofun, .directive u, fun _ => .directive u⟩
  refine .ite (fun hstart => ?_) fun _ => ?_
  · refine (namespaceWith_steady h hstart).mono fun i c' _ _ hi => ⟨hi.1, ?_, hi.2.2⟩
    exact fun v heq => absurd heq (hi.2.1 v)
  refine .ite (fun _ => ?_) fun _ => ?_
  · refine .bind .takeGroup? ?_
    rintro _ c₁ - - (⟨run, rfl, hrange, -, htwo, hall⟩ | ⟨rfl, -⟩)
    · have hne : run ≠ [] := List.ne_nil_of_length_pos (by omega)
      refine .pure (congrArg Item.raw (Verbatim.ofTokens_shift k hne))
        ⟨hrange.lt_of_ne_nil hne, ?_, .raw _, fun hW => ?_⟩
      · rintro v ⟨⟩
        exact hrange.cutFrom
      · exact .raw (Verbatim.tame_of_forall hall hW)
    · exact .expected _
  refine .ite (fun _ => ?_) fun _ => ?_
  · refine .bind (declaration_steady ext) fun d c₁ _ _ hd => ?_
    refine .pure rfl ⟨hd.moves, nofun, .declaration hd.drawn, fun hW => .declaration ?_⟩
    exact hd.drawn.mono fun d hd => hd.tame hW
  · refine .bind rawItem_steady fun code c₁ _ _ hcode => ?_
    refine .pure rfl ⟨hcode.1, ?_, .raw _, fun hW => .raw (hcode.2.2 hW)⟩
    rintro v ⟨⟩
    exact hcode.2.1

theorem itemsRound_steady (inBraces : Bool) :
    Steady.Round k ts W (Item.shift k) (itemsRound ext items inBraces)
      (itemsRound ext items' inBraces) (Item.Drawn ext ts W) c := by
  refine .bind comments_steady ?_
  rintro comments c₁ - hle₁ hfound
  have hcomments : ∀ i ∈ comments.map Item.comment, i.Drawn ext ts W :=
    List.forall_mem_map.mpr fun v hv => ⟨.comment v, fun hW => .comment (hfound v hv hW)⟩
  dsimp only
  rw [map_map_shift (Item.shift k) fun _ => rfl]
  refine .atEnd (.ite (fun _ => ?_) fun _ => ?_)
  · exact .ite (fun _ => .expected _) fun _ => .round_ended rfl hcomments
  refine .atPunct _ (.ite (fun _ => .round_ended rfl hcomments) fun _ => ?_)
  have hitem := item_steady fun inBraces c' hlt => h inBraces c' (Nat.lt_of_le_of_lt hle₁ hlt)
  refine .bind hitem fun i c₂ _ _ hi => ?_
  refine .round_goes_on ?_ (List.forall_mem_append.mpr ⟨hcomments, ?_⟩) (by omega)
  · rw [List.map_append]
    rfl
  · exact List.forall_mem_singleton.mpr hi.2.2

theorem items_body_steady (inBraces : Bool) :
    Steady k ts W (List.map (Item.shift k)) (rounds (itemsRound ext items inBraces))
      (rounds (itemsRound ext items' inBraces)) c fun found _ => ∀ i ∈ found, i.Drawn ext ts W :=
  .rounds fun _ hle => itemsRound_steady
    (fun inBraces' c' hlt => h inBraces' c' (Nat.lt_of_le_of_lt hle hlt)) inBraces

end Scopes

theorem items_steady (ext : Extensions) (inBraces : Bool) :
    Steady k ts W (List.map (Item.shift k)) (items ext inBraces) (items ext inBraces) c
      fun found _ => ∀ i ∈ found, i.Drawn ext ts W :=
  .nested (Q := fun _ (found : List Item) _ => ∀ i ∈ found, i.Drawn ext ts W)
    (fun _ _ inBraces _ h => items_body_steady h inBraces) inBraces c

end Grammar

namespace CompilationUnit

variable {ext : Extensions} {source : String} {base : Nat} {u : CompilationUnit}

/-- The tree of a file is drawn from its tokens. -/
theorem exists_drawn_of_parse {W : Token → Prop} (hbare : ∀ t, W t → W t.bare)
    (hW : ∀ ts, Token.tokenize source base = .ok ts → ∀ t ∈ ts, W t)
    (h : parse ext source base = .ok u) :
    ∃ ts eof, Token.tokenize source base = .ok (ts ++ [eof]) ∧ eof.isEof = true ∧
      ∀ i ∈ u.items, i.Drawn ext ts W := by
  obtain ⟨all, c, htokens, hread⟩ := exists_items_of_parse h
  obtain ⟨ts, eof, rfl, -, heof, -⟩ := Token.exists_eof_of_tokenize htokens
  have hall := hW _ htokens
  have hwithin : (Cursor.ofTokens (ts ++ [eof])).Within ts W := by
    refine ⟨.ofTokens heof, nofun, fun t ht => hall t ((List.dropLast_sublist _).subset ht), ?_,
      hbare⟩
    show W (((ts ++ [eof]).getLast?).getD default)
    rw [List.getLast?_concat]
    exact hall eof List.mem_concat_self
  have hitems := (Grammar.items_steady (k := 0) ext false).of_ok hwithin hread
  exact ⟨ts, eof, htokens, heof, hitems.2.2.2⟩

/-- **The tree of a paired source is tame.** -/
theorem tame_of_parse (hpaired : Paired source.toList) (h : parse ext source base = .ok u) :
    ∀ i ∈ u.items, i.Tame := by
  obtain ⟨ts, eof, -, -, hdrawn⟩ := exists_drawn_of_parse (fun t ht => Token.Tame.dropLeading ht)
    (fun ts hts => Token.tame_of_tokenize hpaired hts) h
  exact fun i hi => (hdrawn i hi).tame fun t ht => ht

/-- **A file read without null assertions has none**, in any declaration. -/
theorem parse_markFree (hoff : ext.nullAssertion = false) (h : parse ext source base = .ok u) :
    ∀ i ∈ u.items, i.Everywhere Declaration.MarkFree := by
  obtain ⟨ts, eof, -, -, hdrawn⟩ := exists_drawn_of_parse (W := fun _ => True)
    (fun _ _ => trivial) (fun _ _ _ _ => trivial) h
  exact fun i hi => (hdrawn i hi).everywhere.mono fun d hd => hd.unmarked hoff

end CompilationUnit

end ClassSugar
