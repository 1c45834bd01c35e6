import ClassSugar.Grammar.CompilationUnit
import ClassSugar.Proofs.BracketBalance
import ClassSugar.Proofs.Layout
import ClassSugar.Proofs.TakenTokens

/-!
# Heads as they are read

The readers of attributes, types, parameters, base lists and initializers take tokens one by one,
and each of them accounts for what it takes: the run is a head that keeps what the reader returns
(`IsHead`).
-/

namespace ClassSugar

open Reader Grammar

theorem Token.isHeadMark_of_isPunct {t : Token} {text : String} (h : t.isPunct text = true)
    (htext : text ∈ Token.headMarks) : t.isHeadMark = true := by
  rw [Token.isHeadMark, Bool.or_eq_true]
  exact .inr (List.any_eq_true.mpr ⟨text, htext, h⟩)

theorem Token.isHeadMark_of_ident? {t : Token} (h : t.ident?.isSome = true) :
    t.isHeadMark = true := by
  rw [Token.isHeadMark, h, Bool.true_or]

theorem Token.isMemberMark_of_isHeadMark {t : Token} (h : t.isHeadMark = true) :
    t.isMemberMark = true := by
  rw [Token.isMemberMark, h, Bool.true_or]

theorem Token.isHeadMark_of_isIdent {t : Token} {word : String} (h : t.isIdent word = true) :
    t.isHeadMark = true := by
  simp only [Token.isIdent, Bool.and_eq_true, beq_iff_eq] at h
  exact Token.isHeadMark_of_ident? (by simp [Token.ident?, h.1])

theorem Token.isHeadMark_of_isClose {t : Token} (h : Lookahead.isClose t = true) :
    t.isHeadMark = true := by
  simp only [Lookahead.isClose, Bool.or_eq_true] at h
  rcases h with (h | h) | h
  · exact Token.isHeadMark_of_isPunct h (by decide)
  · exact Token.isHeadMark_of_isPunct h (by decide)
  · exact Token.isHeadMark_of_isPunct h (by decide)

/-- The run is a head that keeps `kept`, whatever comments it loses. -/
def IsHead (test : Token → Bool) (run : List Token) (kept : List Kept) : Prop :=
  ∃ lost, Head test run kept lost

namespace IsHead

variable {test test' : Token → Bool} {run run' : List Token} {kept kept' : List Kept}

theorem nil : IsHead test [] [] :=
  ⟨_, .nil⟩

theorem append (h : IsHead test run kept) (h' : IsHead test run' kept') :
    IsHead test (run ++ run') (kept ++ kept') := by
  obtain ⟨lost, h⟩ := h
  obtain ⟨lost', h'⟩ := h'
  exact ⟨_, h.append h'⟩

theorem mono (h : IsHead test run kept) (htest : ∀ t, test t = true → test' t = true) :
    IsHead test' run kept := by
  obtain ⟨lost, h⟩ := h
  exact ⟨lost, h.mono htest⟩

/-- The head of any member may be that of one without statements. -/
theorem member (h : IsHead Token.isHeadMark run kept) : IsHead Token.isMemberMark run kept :=
  h.mono fun _ => Token.isMemberMark_of_isHeadMark

theorem of_eq (h : IsHead test run kept) (hkept : kept = kept') : IsHead test run kept' :=
  hkept ▸ h

theorem mark {t : Token} (ht : test t = true) : IsHead test [t] [] :=
  ⟨_, .mark ht .nil⟩

theorem marks (h : ∀ t ∈ run, test t = true) : IsHead test run [] :=
  ⟨_, .marks h⟩

theorem punct {t : Token} {text : String} (ht : t.isPunct text = true)
    (htext : text ∈ Token.headMarks) : IsHead Token.isHeadMark [t] [] :=
  mark (Token.isHeadMark_of_isPunct ht htext)

theorem word {t : Token} {w : String} (ht : t.ident? = some w) :
    IsHead Token.isHeadMark [t] [] :=
  mark (Token.isHeadMark_of_ident? (by rw [ht]; rfl))

theorem joined (run : List Token) : IsHead test run [.joined (Token.join run)] := by
  have h : Head test (run ++ []) _ _ := .joined run .nil
  rw [List.append_nil] at h
  exact ⟨_, h⟩

theorem text (run : List Token) : IsHead test run [.text (Token.spell run)] := by
  have h : Head test (run ++ []) _ _ := .text run .nil
  rw [List.append_nil] at h
  exact ⟨_, h⟩

theorem code (hrun : run ≠ []) : IsHead test run [.code (Verbatim.ofTokens run)] := by
  have h : Head test (run ++ []) _ _ := .code hrun .nil
  rw [List.append_nil] at h
  exact ⟨_, h⟩

theorem arguments (run : List Token) {keyword : String}
    (hkeyword : keyword = "base" ∨ keyword = "this") :
    IsHead test run [.text (keyword ++ "(" ++ Token.spell run ++ ")")] := by
  have h : Head test (run ++ []) _ _ := .arguments run hkeyword .nil
  rw [List.append_nil] at h
  exact ⟨_, h⟩

theorem assertion (hrun : isNullAssertion (Token.spell run) = true) : IsHead test run [] := by
  have h : Head test (run ++ []) _ _ := .assertion hrun .nil
  rw [List.append_nil] at h
  exact ⟨_, h⟩

end IsHead

namespace Grammar

open Token (isHeadMark)

/-! ### Attributes -/

/-- The run is a head that keeps the attributes, and it still is one if some of them are read as
null assertions. -/
def AreAttributes (run : List Token) (texts : List String) : Prop :=
  ∀ keep : String → Bool, (∀ s, keep s = false → isNullAssertion s = true) →
    IsHead isHeadMark run ((texts.filter keep).map .text)

theorem AreAttributes.append {run run' : List Token} {texts texts' : List String}
    (h : AreAttributes run texts) (h' : AreAttributes run' texts') :
    AreAttributes (run ++ run') (texts ++ texts') := by
  intro keep hkeep
  rw [List.filter_append, List.map_append]
  exact (h keep hkeep).append (h' keep hkeep)

theorem AreAttributes.mark {run : List Token} (h : IsHead isHeadMark run []) :
    AreAttributes run [] :=
  fun _ _ => h

theorem areAttributes_spell (run : List Token) :
    AreAttributes run (if run.isEmpty then [] else [Token.spell run]) := by
  intro keep hkeep
  by_cases hrun : run.isEmpty = true
  · rw [if_pos hrun, List.isEmpty_iff.mp hrun]
    exact .nil
  · rw [if_neg hrun]
    by_cases hkept : keep (Token.spell run) = true
    · rw [List.filter_cons_of_pos hkept]
      exact .text run
    · rw [List.filter_cons_of_neg hkept]
      exact .assertion (hkeep _ (Bool.eq_false_iff.mpr hkept))

theorem attributeEntry_takes (c : Cursor) :
    Takes attributeEntry c fun run found => AreAttributes run found.1 := by
  refine .bind (.takeUntil _ _) ?_
  rintro run _ _ - ⟨rfl, t, rest, hahead, hstop⟩
  have hnext := Cursor.ahead_advance_length hahead
  refine .bind (.eatPunct _) ?_
  rintro _ _ rest' - (⟨rfl, u, rfl, hu⟩ | ⟨rfl, rfl, hno⟩)
  · refine .pure ?_
    have hall := (areAttributes_spell run).append (.mark (.punct hu (by decide)))
    simpa only [List.append_nil] using hall
  · -- The token found is the comma.
    rw [hnext] at hno
    have hcomma : t.isPunct "," = true := by
      rw [Bool.or_eq_true] at hstop
      exact hstop.resolve_right (Bool.eq_false_iff.mp hno)
    refine .bind (.skip_of_ahead_eq hnext) ?_
    rintro _ _ rest'' - rfl
    refine .pure ?_
    have hall := (areAttributes_spell run).append (.mark (.punct hcomma (by decide)))
    simpa only [List.append_nil, List.nil_append] using hall

theorem attributeSection_takes (c : Cursor) :
    Takes attributeSection c fun run found => AreAttributes run found.1 := by
  refine .bind (.eatPunct _) ?_
  rintro _ _ rest - (⟨rfl, t, rfl, ht⟩ | ⟨rfl, rfl, -⟩)
  · have hentries := Takes.rounds (fun _ _ _ _ => AreAttributes.append) attributeEntry_takes
    refine .bind (hentries _) ?_
    rintro texts run rest' - htexts
    refine .pure ?_
    have hall := (AreAttributes.mark (.punct ht (by decide))).append htexts
    simpa only [List.append_nil, List.nil_append] using hall
  · exact .pure (.mark .nil)

theorem attributes_takes (c : Cursor) : Takes attributes c AreAttributes :=
  Takes.rounds (fun _ _ _ _ => AreAttributes.append) attributeSection_takes c

theorem AreAttributes.isHead {run : List Token} {texts : List String}
    (h : AreAttributes run texts) : IsHead isHeadMark run (texts.map .text) := by
  have hall := h (fun _ => true) (fun _ hs => nomatch hs)
  rwa [List.filter_eq_self.mpr fun _ _ => rfl] at hall

/-! ### Types and constraints -/

theorem typeName_takes (c : Cursor) :
    Takes typeName c fun run ty => IsHead isHeadMark run [.joined ty.text] := by
  refine .look rfl ?_
  split
  case h_1 type htype =>
    refine .bind (.take _) ?_
    rintro run _ rest - ⟨rfl, -⟩
    refine .pure ?_
    rw [List.append_nil]
    exact .joined run
  case h_2 => exact .expected _

theorem typeParams_takes (c : Cursor) :
    Takes typeParams c fun run types => IsHead isHeadMark run (types.toList.map .joined) := by
  refine .look rfl (.ite (fun _ => ?_) fun _ => .pure .nil)
  refine .bind (.take 1) ?_
  rintro opening _ _ - ⟨rfl, -⟩
  refine .bind (.takeUntil _ _) ?_
  rintro inner _ _ - ⟨rfl, -⟩
  refine .bind (.take 1) ?_
  rintro closing _ _ - ⟨rfl, -⟩
  refine .pure ?_
  have hall : IsHead isHeadMark _ _ := .joined (opening ++ inner ++ closing)
  simpa using hall

theorem constraint_takes (stop : Token → Bool) (c : Cursor) :
    Takes (constraint stop) c fun run found => IsHead isHeadMark run (found.1.map .joined) := by
  refine .bind (.eatWord _) ?_
  rintro _ _ rest - (⟨rfl, t, rfl, ht⟩ | ⟨rfl, rfl, -⟩)
  · refine .bind (.takeUntil _ _) ?_
    rintro run _ _ - ⟨rfl, -⟩
    refine .pure ?_
    exact ((IsHead.mark (Token.isHeadMark_of_isIdent ht)).append
      ((IsHead.joined run).append .nil)).of_eq rfl
  · exact .pure .nil

/-- Heads that are read one after the other keep what each of them keeps. -/
theorem isHead_append {α : Type} (kept : α → Kept) (run run' : List Token) (found found' : List α)
    (h : IsHead isHeadMark run (found.map kept)) (h' : IsHead isHeadMark run' (found'.map kept)) :
    IsHead isHeadMark (run ++ run') ((found ++ found').map kept) := by
  rw [List.map_append]
  exact h.append h'

theorem constraints_takes (stop : Token → Bool) (c : Cursor) :
    Takes (constraints stop) c fun run clauses => IsHead isHeadMark run (clauses.map .joined) :=
  Takes.rounds (isHead_append .joined) (constraint_takes stop) c

/-! ### Parameters -/

theorem takeWords_takes (test : String → Bool) (c : Cursor) :
    Takes (takeWords test) c fun run words =>
      words = run.map Token.text ∧ IsHead isHeadMark run [] := by
  refine (Takes.takeWords test).mono ?_
  rintro run rest words - ⟨hwords, hrun⟩
  refine ⟨hwords, .marks fun t ht => Token.isHeadMark_of_ident? ?_⟩
  have hword := hrun t ht
  cases hident : t.ident? with
  | none => rw [hident] at hword; cases hword
  | some w => rfl

theorem eatMarks_takes (ext : Extensions) (c : Cursor) :
    Takes (eatMarks ext) c fun run _ => IsHead isHeadMark run [] := by
  refine .look rfl (.ite (fun hmarks => ?_) fun _ => .pure .nil)
  refine .bind (.take 2) ?_
  rintro run _ rest - ⟨rfl, hrun⟩
  refine .pure ?_
  rw [List.append_nil]
  simp only [Bool.and_eq_true] at hmarks
  obtain ⟨⟨-, hfirst⟩, hsecond⟩ := hmarks
  refine .marks fun t ht => ?_
  rw [hrun] at ht
  cases hc : c.ahead with
  | nil =>
    rw [hc] at ht
    cases ht
  | cons t₁ ts =>
    rw [hc] at ht hfirst hsecond
    rcases List.mem_cons.mp ht with rfl | ht
    · exact Token.isHeadMark_of_isPunct hfirst (by decide)
    · cases ts with
      | nil => cases ht
      | cons t₂ ts =>
        rw [List.take_succ_cons, List.take_zero, List.mem_singleton] at ht
        subst ht
        exact Token.isHeadMark_of_isPunct hsecond (by decide)

theorem defaultValue_takes (c : Cursor) :
    Takes defaultValue c fun run value => IsHead isHeadMark run (value.toList.map .text) := by
  refine .bind (.eatPunct _) ?_
  rintro _ _ rest - (⟨rfl, t, rfl, ht⟩ | ⟨rfl, rfl, -⟩)
  · refine .bind (.takeUntil _ _) ?_
    rintro run _ _ - ⟨rfl, -⟩
    refine .pure ?_
    exact ((IsHead.punct ht (by decide)).append ((IsHead.text run).append .nil)).of_eq rfl
  · exact .pure .nil

theorem parameter_takes (ext : Extensions) (c : Cursor) :
    Takes (parameter ext) c fun run p => IsHead isHeadMark run p.kept := by
  refine .look rfl (.bind (attributes_takes c) ?_)
  rintro all run₁ _ - hall
  refine .bind (takeWords_takes _ _) ?_
  rintro modifiers run₂ _ - ⟨-, hmodifiers⟩
  refine .bind (typeName_takes _) ?_
  rintro ty run₃ _ - hty
  refine .bind .expectIdent ?_
  rintro name _ _ - ⟨t, rfl, ht⟩
  refine .bind (eatMarks_takes ext _) ?_
  rintro marked run₅ _ - hmarked
  refine .bind (defaultValue_takes _) ?_
  rintro default run₆ _ - hdefault
  refine .look rfl (.pure ?_)
  have hattributes := hall (fun text => !(ext.nullAssertion && isNullAssertion text)) (by grind)
  exact (hattributes.append (hmodifiers.append (hty.append ((IsHead.word ht).append
    (hmarked.append (hdefault.append .nil)))))).of_eq (by simp [Parameter.kept])

theorem parameterRound_takes (ext : Extensions) (c : Cursor) :
    Takes (parameterRound ext) c fun run found =>
      IsHead isHeadMark run (found.1.flatMap Parameter.kept) := by
  refine .bind (parameter_takes ext c) ?_
  rintro p run _ - hp
  refine .bind (.eatPunct _) ?_
  rintro _ _ rest - (⟨rfl, t, rfl, ht⟩ | ⟨rfl, rfl, -⟩)
  · refine .pure ?_
    exact (hp.append ((IsHead.punct ht (by decide)).append .nil)).of_eq (by simp)
  · refine .bind (.expectPunct _) ?_
    rintro _ _ rest' - ⟨t, rfl, ht⟩
    refine .pure ?_
    exact (hp.append ((IsHead.punct ht (by decide)).append .nil)).of_eq (by simp)

theorem isHead_append_flatMap {α : Type} (kept : α → List Kept) (run run' : List Token)
    (found found' : List α) (h : IsHead isHeadMark run (found.flatMap kept))
    (h' : IsHead isHeadMark run' (found'.flatMap kept)) :
    IsHead isHeadMark (run ++ run') ((found ++ found').flatMap kept) := by
  rw [List.flatMap_append]
  exact h.append h'

theorem parameters_takes (ext : Extensions) (c : Cursor) :
    Takes (parameters ext) c fun run ps => IsHead isHeadMark run (ps.flatMap Parameter.kept) := by
  refine .bind (.expectPunct _) ?_
  rintro _ _ rest - ⟨t, rfl, ht⟩
  have hopen := IsHead.punct ht (by decide)
  refine .bind (.eatPunct _) ?_
  rintro _ _ rest - (⟨rfl, u, rfl, hu⟩ | ⟨rfl, rfl, -⟩)
  · refine .pure ?_
    exact (hopen.append ((IsHead.punct hu (by decide)).append .nil)).of_eq rfl
  · have hrounds := Takes.rounds (isHead_append_flatMap _) (parameterRound_takes ext)
    refine (hrounds _).mono ?_
    rintro run _ ps - hps
    exact (hopen.append hps).of_eq rfl

/-! ### Parts of members -/

theorem memberName_takes (c : Cursor) :
    Takes memberName c fun run name => run ≠ [] ∧ IsHead isHeadMark run [.joined name] := by
  refine .look rfl (.bind .expectIdent ?_)
  rintro _ _ rest hrest ⟨t, rfl, -⟩
  have hparts : ∀ c, Takes namePart c fun run found => True := by
    intro c
    refine .look rfl (.ite (fun _ => ?_) fun _ => .pure trivial)
    exact .bind (.take 2) fun _ _ _ _ _ => .pure trivial
  have hrounds : Takes (rounds namePart) (c.advance [t].length) fun _ _ => True :=
    Takes.rounds (fun _ _ _ _ _ _ => trivial) hparts _
  refine .bind hrounds ?_
  rintro parts run rest' hrest' -
  have hsince : ((c.advance [t].length).advance run.length).since c.position = t :: run := by
    refine Cursor.since_position ?_
    rw [Cursor.behind_advance_length hrest', Cursor.behind_advance_length hrest]
    simp
  refine .look rfl (.pure ?_)
  rw [hsince, List.append_nil]
  exact ⟨List.cons_ne_nil t run, .joined (t :: run)⟩

theorem expression_takes (c : Cursor) :
    Takes expression c fun run value => IsHead isHeadMark run [.code value] := by
  refine .bind (.takeUntil _ _) ?_
  rintro run _ _ - ⟨rfl, t, rest, hahead, hstop⟩
  refine .ite (fun _ => .expected _) fun hrun => ?_
  refine .bind (.skip_of_ahead_eq (Cursor.ahead_advance_length hahead)) ?_
  rintro _ _ rest' - rfl
  refine .pure ?_
  have hne : run ≠ [] := fun hnil => hrun (by rw [hnil]; rfl)
  exact ((IsHead.code hne).append ((IsHead.punct hstop (by decide)).append .nil)).of_eq rfl

theorem fieldInitializer_takes (c : Cursor) :
    Takes fieldInitializer c fun run value => IsHead isHeadMark run (value.toList.map .code) := by
  refine .bind (.eatPunct _) ?_
  rintro _ _ rest - (⟨rfl, t, rfl, ht⟩ | ⟨rfl, rfl, -⟩)
  · refine .bind (expression_takes _) ?_
    rintro value run rest' - hvalue
    refine .pure ?_
    exact ((IsHead.punct ht (by decide)).append (hvalue.append .nil)).of_eq rfl
  · refine .bind (.expectPunct _) ?_
    rintro _ _ rest' - ⟨t, rfl, ht⟩
    exact .pure (((IsHead.punct ht (by decide)).append .nil).of_eq rfl)

/-- A bracket group that starts with its opening bracket: the bracket, what it holds, and the
bracket that closes it. -/
theorem exists_of_skipGroup {ts : List Token} {text : String} {group : Text.Tail ts}
    (h : Lookahead.skipGroup ts = some group) (htext : Lookahead.atPunct text ts = true) :
    ∃ opening inner closing, group.read = opening :: inner ++ [closing] ∧
      opening.isPunct text = true ∧ Lookahead.isClose closing = true := by
  obtain ⟨inner, closing, hread, hclose, hinner⟩ := (Lookahead.isGroup_of_closeGroup h).last
  cases inner with
  | nil => cases hinner
  | cons opening inner =>
    rw [← group.read_append_rest, hread] at htext
    exact ⟨opening, inner, closing, hread, htext, hclose⟩

theorem constructorCall_takes (c : Cursor) :
    Takes constructorCall c fun run call => IsHead isHeadMark run (call.toList.map .text) := by
  refine .bind (.eatPunct _) ?_
  rintro _ _ rest - (⟨rfl, t, rfl, ht⟩ | ⟨rfl, rfl, -⟩)
  · refine .bind .expectIdent ?_
    rintro keyword _ rest' - ⟨u, rfl, hu⟩
    refine .ite (fun _ => .expected _) fun hother => ?_
    have hkeyword : keyword = "base" ∨ keyword = "this" := by
      simp only [bne_iff_ne, ne_eq, Bool.and_eq_true] at hother
      exact Decidable.or_iff_not_not_and_not.mpr hother
    refine .look rfl (.ite (fun hopen => ?_) fun _ => .expected _)
    refine .bind .takeGroup? ?_
    rintro _ run rest'' hrest (⟨rfl, group, hgroup, hread⟩ | ⟨rfl, rfl⟩)
    · refine .pure ?_
      obtain ⟨opening, inner, closing, hrun, hpunct, hclose⟩ :=
        exists_of_skipGroup hgroup hopen
      rw [hread, hrun]
      have hinner : ((opening :: inner ++ [closing]).drop 1).dropLast = inner := by simp
      rw [hinner]
      have hall := (IsHead.punct ht (by decide)).append ((IsHead.word hu).append
        ((IsHead.punct hpunct (by decide)).append ((IsHead.arguments inner hkeyword).append
          (IsHead.mark (Token.isHeadMark_of_isClose hclose)))))
      simpa using hall
    · exact .expected _
  · exact .pure .nil

/-- Accessors without bodies are words and semicolons. -/
theorem isHeadMark_of_accessors? {modifiers : List String} {ts : List Token} {as : List Accessor}
    (h : accessors? modifiers ts = some as) : ∀ t ∈ ts, t.isHeadMark = true := by
  fun_induction accessors? modifiers ts generalizing as with
  | case1 => exact List.forall_mem_nil _
  | case2 => cases h
  | case3 modifiers t r hword ih =>
    have hmark : t.isHeadMark = true := Token.isHeadMark_of_ident? (Option.isSome_of_any hword)
    exact List.forall_mem_cons.mpr ⟨hmark, ih h⟩
  | case4 => cases h
  | case5 modifiers t hword u r haccessor ih =>
    obtain ⟨more, hmore, -⟩ := Option.map_eq_some_iff.mp h
    rw [Bool.and_eq_true, Bool.and_eq_true] at haccessor
    obtain ⟨⟨hkeyword, hsemicolon⟩, -⟩ := haccessor
    have hmark : t.isHeadMark = true := Token.isHeadMark_of_ident? (Option.isSome_of_any hkeyword)
    have hend : u.isHeadMark = true := Token.isHeadMark_of_isPunct hsemicolon (by decide)
    exact List.forall_mem_cons.mpr ⟨hmark, List.forall_mem_cons.mpr ⟨hend, ih hmore⟩⟩
  | case6 => cases h

/-- The body of a property is its accessors, which are written anew, or it is kept. -/
theorem propertyBody_takes (c : Cursor) (hopen : Lookahead.atPunct "\x7b" c.ahead = true) :
    Takes propertyBody c fun run body => IsHead Token.isMemberMark run body.kept := by
  refine .bind .takeGroup? ?_
  rintro _ run rest - (⟨rfl, group, hgroup, hread⟩ | ⟨rfl, rfl⟩)
  · obtain ⟨opening, inner, closing, hrun, hbrace, hclose⟩ :=
      exists_of_skipGroup hgroup hopen
    rw [hrun] at hread
    have hne : run ≠ [] := by
      rw [hread]
      exact List.cons_ne_nil _ _
    have hinner : (run.drop 1).dropLast = inner := by rw [hread]; simp
    have hfirst : opening.isMemberMark = true := by simp [Token.isMemberMark, hbrace]
    refine .pure ?_
    rw [List.append_nil, propertyBodyOf]
    repeat' split
    · rename_i haccessors _ _
      rw [hinner] at haccessors
      have hmarks := (IsHead.marks (isHeadMark_of_accessors? haccessors)).append
        (IsHead.mark (Token.isHeadMark_of_isClose hclose))
      rw [hread]
      exact (IsHead.mark hfirst).append hmarks.member
    · exact .code hne
    · exact .code hne
  · exact .expected _

/-! ### Parts of declarations -/

/-- What an entry after the colon of a header keeps. -/
def HeaderEntry.kept : HeaderEntry → List Kept
  | .access _ => []
  | .base entry => entry.kept

/-- An entry with arguments has them between two tokens. -/
theorem exists_of_splitArguments {ts before args : List Token} {opening : Token}
    (h : splitArguments ts = some (before, opening, args)) :
    opening.isPunct "(" = true ∧ ∃ closing, ts = before ++ [opening] ++ args ++ [closing] := by
  fun_induction splitArguments ts generalizing before with
  | case1 => cases h
  | case2 t r hgroup =>
    cases h
    obtain ⟨hopening, hgroup⟩ := Bool.and_eq_true_iff.mp hgroup
    -- The group that starts here has two tokens, so some stand behind the first.
    have hne : r ≠ [] := by
      rintro rfl
      obtain ⟨group, hskip, -⟩ := (Option.any_eq_true _ _).mp hgroup
      have htwo := (Lookahead.isGroup_of_closeGroup hskip).two_le
      have hone : group.read.length ≤ [opening].length :=
        List.IsPrefix.length_le ⟨group.rest, group.read_append_rest⟩
      rw [List.length_singleton] at hone
      omega
    refine ⟨hopening, r.getLast hne, ?_⟩
    rw [List.append_assoc, List.dropLast_append_getLast]
    rfl
  | case3 t r hgroup ih =>
    obtain ⟨⟨before', opening', args'⟩, hr, hsplit⟩ := Option.map_eq_some_iff.mp h
    cases hsplit
    obtain ⟨hopening, closing, hclosing⟩ := ih hr
    exact ⟨hopening, closing, congrArg (t :: ·) hclosing⟩

/-- How an entry stands on its tokens. -/
inductive HeaderEntry.StandsOn : List Token → HeaderEntry → Prop where
  | bare (ts : List Token) : StandsOn ts (.base ⟨Token.join ts, none⟩)
  | access {before : List Token} {opening closing : Token} (hwords : isAccessClause before = true)
      (hopening : opening.isPunct "(" = true) (hclosing : closing.isPunct ")" = true) :
      StandsOn (before ++ [opening] ++ [closing]) (.access (Token.join before))
  | arguments {before args : List Token} {opening closing : Token}
      (hopening : opening.isPunct "(" = true) (hclosing : closing.isPunct ")" = true) :
      StandsOn (before ++ [opening] ++ args ++ [closing])
        (.base ⟨Token.join before, some (Token.spell args)⟩)

theorem standsOn_of_headerEntryOf {ts : List Token} {entry : HeaderEntry}
    (h : headerEntryOf ts = .ok entry) : entry.StandsOn ts := by
  rw [headerEntryOf] at h
  generalize hsplit : (if ts.getLast?.any (·.isPunct ")") then splitArguments ts else none) =
    arguments at h
  cases arguments with
  | none =>
    cases h
    exact .bare ts
  | some found =>
    obtain ⟨before, opening, args⟩ := found
    dsimp only at h
    obtain ⟨hclose, hsplit⟩ := Option.ite_none_right_eq_some.mp hsplit
    obtain ⟨hopening, closing, rfl⟩ := exists_of_splitArguments hsplit
    rw [List.getLast?_concat, Option.any_some] at hclose
    split at h
    · rename_i hwords
      split at h
      · rename_i hargs
        cases h
        rw [List.isEmpty_iff.mp hargs, List.append_nil]
        exact .access hwords hopening hclose
      · cases h
    · cases h
      exact .arguments hopening hclose

theorem HeaderEntry.StandsOn.isHead {ts : List Token} {entry : HeaderEntry}
    (h : entry.StandsOn ts) : IsHead isHeadMark ts entry.kept := by
  cases h with
  | bare => exact .joined ts
  | @access before opening closing hwords hopening hclosing =>
    rw [isAccessClause, Bool.and_eq_true, List.all_eq_true] at hwords
    have hbefore : IsHead isHeadMark before [] := by
      refine .marks fun t ht => Token.isHeadMark_of_ident? ?_
      exact Option.isSome_of_any (hwords.2 t ht)
    exact (hbefore.append (.punct hopening (by decide))).append (.punct hclosing (by decide))
  | @arguments before args opening closing hopening hclosing =>
    have hall := (((IsHead.joined before).append (.punct hopening (by decide))).append
      (.text args)).append (.punct hclosing (by decide))
    exact hall.of_eq (by simp [HeaderEntry.kept, BaseEntry.kept])

theorem headerEntry_takes (c : Cursor) :
    Takes headerEntry c fun run found =>
      IsHead isHeadMark run (found.1.flatMap HeaderEntry.kept) := by
  refine .bind (.takeUntil _ _) ?_
  rintro run _ _ - ⟨rfl, -⟩
  refine .ite (fun _ => .expected _) fun _ => ?_
  split
  case h_1 e _ => exact fun _ _ => .refl _
  case h_2 entry hentry =>
    have hhead := (standsOn_of_headerEntryOf hentry).isHead
    refine .bind (.eatPunct _) ?_
    rintro _ _ rest - (⟨rfl, t, rfl, ht⟩ | ⟨rfl, rfl, -⟩)
    · refine .pure ?_
      exact (hhead.append ((IsHead.punct ht (by decide)).append .nil)).of_eq (by simp)
    · refine .pure ?_
      exact (hhead.append (IsHead.nil.append .nil)).of_eq (by simp)

theorem headerEntries_takes (c : Cursor) :
    Takes headerEntries c fun run entries =>
      IsHead isHeadMark run (entries.flatMap HeaderEntry.kept) := by
  refine .bind (.eatPunct _) ?_
  rintro _ _ rest - (⟨rfl, t, rfl, ht⟩ | ⟨rfl, rfl, -⟩)
  · have hrounds := Takes.rounds (isHead_append_flatMap _) headerEntry_takes
    refine (hrounds _).mono ?_
    rintro run _ entries - hentries
    exact (IsHead.punct ht (by decide)).append hentries
  · exact .pure .nil

theorem declarationKind_takes (c : Cursor) :
    Takes declarationKind c fun run _ => IsHead isHeadMark run [] := by
  refine .bind .expectIdent ?_
  rintro word _ _ - ⟨t, rfl, ht⟩
  have hword := IsHead.word ht
  refine .ite (fun _ => .pure (hword.append .nil)) fun _ => ?_
  refine .ite (fun _ => .bind (.eatWord _) ?_) fun _ =>
    .bind (.expectWord _) ?_
  · rintro _ _ rest - (⟨rfl, u, rfl, hu⟩ | ⟨rfl, rfl, -⟩)
    · exact .pure (hword.append ((IsHead.mark (Token.isHeadMark_of_isIdent hu)).append .nil))
    · exact .pure (hword.append .nil)
  · rintro _ _ rest - ⟨u, rfl, hu⟩
    exact .pure (hword.append ((IsHead.mark (Token.isHeadMark_of_isIdent hu)).append .nil))

/-! ### Directives and namespaces -/

theorem usingDirective_takes (c : Cursor) (hstart : isUsingStart c.ahead = true) :
    Takes usingDirective c fun run u =>
      run ≠ [] ∧ IsHead Token.isUsingMark run [.joined u.target] := by
  rw [isUsingStart, Bool.and_eq_true, Bool.and_eq_true] at hstart
  obtain ⟨⟨husing, -⟩, -⟩ := hstart
  -- From the keyword on.
  have htarget : ∀ (front : List Token) (isGlobal : Bool) (c : Cursor),
      IsHead Token.isUsingMark front [] → Lookahead.atWord "using" c.ahead = true →
      Takes (do
        skip
        let ts ← takeUntil false (·.isPunct ";")
        skip
        return (⟨isGlobal, Token.join ts⟩ : Using)) c
        fun run u => front ++ run ≠ [] ∧
          IsHead Token.isUsingMark (front ++ run) [.joined u.target] := by
    intro front isGlobal c hfront husing
    refine .bind (.skip_of_startsWith husing) ?_
    rintro _ _ _ - ⟨keyword, rfl, hkeyword⟩
    refine .bind (.takeUntil _ _) ?_
    rintro target _ _ - ⟨rfl, semicolon, rest, hahead, hstop⟩
    refine .bind (.skip_of_ahead_eq (Cursor.ahead_advance_length hahead)) ?_
    rintro _ _ _ - rfl
    refine .pure ?_
    have hfirst : keyword.isUsingMark = true := by simp [Token.isUsingMark, hkeyword]
    have hlast : semicolon.isUsingMark = true := by simp [Token.isUsingMark, hstop]
    refine ⟨by simp, ?_⟩
    exact (hfront.append ((IsHead.mark hfirst).append ((IsHead.joined target).append
      ((IsHead.mark hlast).append .nil)))).of_eq rfl
  refine .bind (.eatWord _) ?_
  rintro _ _ rest hrest (⟨rfl, t, rfl, ht⟩ | ⟨rfl, rfl, hno⟩)
  · have hglobal : Lookahead.atWord "global" c.ahead = true := by rw [hrest]; exact ht
    rw [if_pos hglobal] at husing
    have hmark : t.isUsingMark = true := by simp [Token.isUsingMark, ht]
    exact htarget [t] true _ (.mark hmark) husing
  · rw [if_neg (Bool.eq_false_iff.mp hno)] at husing
    exact htarget [] false _ .nil husing

end Grammar

end ClassSugar
