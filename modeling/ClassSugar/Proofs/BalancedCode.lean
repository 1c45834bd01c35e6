import ClassSugar.Proofs.Baseline
import ClassSugar.Proofs.SteadyUnit
import ClassSugar.Proofs.TokenRuns

/-!
# Code that can be moved

Desugaring moves code: loose statements go into a constructor, the value behind an arrow goes behind
a `return`, initializers go from one member to another. Nothing looks into the code that is moved,
so it had better not hold a bracket that belongs to its surroundings.

It does not. Whatever code the tree of a source holds is a run of the tokens of that source whose
brackets balance (`fragments_balance`). Read on its own, its text has balanced tokens again, and
balanced tokens are *inert*: put anywhere, they leave a sequence that balances balanced, and every
bracket that is open before them is closed by the token that closes it without them.
-/

namespace ClassSugar

open ClassSugar.Text

namespace Token

/-! ### Balanced tokens between others -/

/-- Tokens that mean nothing to the brackets around them. -/
structure Inert (run : List Token) : Prop where
  /-- What balances without them balances with them. -/
  balanced : ∀ front back, Balanced (front ++ back) → Balanced (front ++ run ++ back)
  /-- Open brackets are closed where they are closed without them. -/
  closed : ∀ depth rest, (Lookahead.closeGroup (depth + 1) (run ++ rest)).map Tail.rest =
    (Lookahead.closeGroup (depth + 1) rest).map Tail.rest

theorem net_append (ts ts' : List Token) : net (ts ++ ts') = net ts + net ts' := by
  induction ts with
  | nil => exact (Int.zero_add _).symm
  | cons t ts ih =>
    show t.bracket + net (ts ++ ts') = t.bracket + net ts + net ts'
    rw [ih, Int.add_assoc]

/-- A start of two runs ends in the first, or behind it. -/
theorem isPrefix_or_of_isPrefix_append {start ts ts' : List Token} (h : start <+: ts ++ ts') :
    start <+: ts ∨ ∃ more, more <+: ts' ∧ start = ts ++ more := by
  rcases List.prefix_or_prefix_of_prefix h (List.prefix_append ts ts') with hfirst | ⟨more, rfl⟩
  · exact .inl hfirst
  · exact .inr ⟨more, (List.prefix_append_right_inj ts).mp h, rfl⟩

theorem Balanced.inert {run : List Token} (h : Balanced run) : Inert run where
  balanced front back hboth := by
    have htotal := hboth.total
    rw [net_append] at htotal
    refine ⟨fun start hstart => ?_, ?_⟩
    · -- A start of the whole ends in the front, in the run, or behind both.
      rcases isPrefix_or_of_isPrefix_append hstart with hfront | ⟨back', hback, rfl⟩
      · rcases isPrefix_or_of_isPrefix_append hfront with hfront | ⟨run', hrun, rfl⟩
        · exact hboth.nonneg start (hfront.trans (List.prefix_append _ _))
        · have hle := hboth.nonneg front (List.prefix_append _ _)
          have hle' := h.nonneg run' hrun
          rw [net_append]
          omega
      · have hle := hboth.nonneg (front ++ back') ((List.prefix_append_right_inj front).mpr hback)
        have hzero := h.total
        rw [net_append] at hle
        rw [net_append, net_append]
        omega
    · rw [net_append, net_append, h.total]
      omega
  closed depth rest := Lookahead.closeGroup_append h.closes depth rest

/-! ### Tokens read again -/

/-- What a token says decides whether it is a bracket. -/
theorem map_bracket_of_map_content {ts ts' : List Token}
    (h : ts.map content = ts'.map content) : ts.map bracket = ts'.map bracket := by
  have hsaid : ∀ us : List Token, us.map bracket = (us.map content).map fun said =>
      bracket { (default : Token) with kind := said.1, text := said.2.1 } := by
    intro us
    rw [List.map_map]
    rfl
  rw [hsaid, h, ← hsaid]

/-- **A balanced run is balanced in its own text.** -/
theorem exists_balanced_of_run {source : String} {base : Nat} {before run after : List Token}
    (h : tokenize source base = .ok (before ++ run ++ after)) (hne : run ≠ [])
    (hafter : after ≠ []) (hrun : Balanced run) (base' : Nat) :
    ∃ own eof, tokenize (spell run) base' = .ok (own ++ [eof]) ∧ eof.isEof = true ∧
      Balanced own := by
  have hsolid : ∀ t ∈ run, t.isEof = false := fun t ht =>
    isEof_eq_false_of_mem_left h hafter t (List.mem_append_right _ ht)
  obtain ⟨ps, hpieces, hspell, hcontent⟩ := exists_pieces_of_run h hne hsolid
  obtain ⟨own, ends, hown, hsame, hends⟩ :=
    List.map_eq_append_iff.mp (hcontent (Place.start base'))
  obtain ⟨eof, rfl, heof⟩ := List.map_eq_singleton_iff.mp hends
  refine ⟨own, eof, ?_, ?_, ?_⟩
  · rw [tokenize, ← hspell, hpieces]
    exact congrArg Except.ok hown
  · have hkind : eof.kind = .eof := congrArg Prod.fst heof
    rw [isEof, hkind]
    rfl
  · -- Comments before the first token are lost, and they are no brackets.
    have hhead : (run.modifyHead fun t => { t with leading := [] }).map bracket =
        run.map bracket := by
      cases run <;> rfl
    refine hrun.congr ?_
    rw [map_bracket_of_map_content hsame, hhead]

end Token

/-! ### The code of a tree -/

/-- The text can be put anywhere: read on its own it has balanced tokens, which are inert. -/
def Verbatim.Movable (v : Verbatim) : Prop :=
  ∀ base, ∃ own eof, Token.tokenize v.text base = .ok (own ++ [eof]) ∧ eof.isEof = true ∧
    Token.Balanced own ∧ Token.Inert own

theorem Verbatim.IsCode.movable {source : String} {base : Nat} {ts : List Token} {eof : Token}
    {v : Verbatim} (h : Token.tokenize source base = .ok (ts ++ [eof])) (hv : v.IsCode ts) :
    v.Movable := by
  obtain ⟨i, j, hlt, hcut, hbalanced⟩ := hv
  intro base'
  -- The tokens before the code, those of the code and those behind it.
  have hsplit : ts ++ [eof] = ts.take i ++ Token.range ts i j ++ (ts.drop j ++ [eof]) := by
    have hfront : ts.take j = ts.take i ++ Token.range ts i j := by
      have htake : ts.take i = (ts.take j).take i := by
        rw [List.take_take, Nat.min_eq_left (Nat.le_of_lt hlt)]
      rw [htake, Token.range, List.take_append_drop]
    rw [← hfront, ← List.append_assoc, List.take_append_drop]
  have hne : Token.range ts i j ≠ [] := by
    have hle := hcut.le_length
    rw [Token.range, Ne, List.drop_eq_nil_iff, List.length_take]
    omega
  rw [hsplit] at h
  obtain ⟨own, eof', htokens, heof, hown⟩ := Token.exists_balanced_of_run h hne
    (List.append_ne_nil_of_right_ne_nil _ (List.cons_ne_nil _ _)) hbalanced base'
  rw [hcut.eq]
  exact ⟨own, eof', htokens, heof, hown, hown.inert⟩

/-- What holds everywhere in an item holds of all declarations that are listed for it. -/
theorem Item.Everywhere.forall_mem_declarations {P : Declaration → Prop} {i : Item}
    (h : i.Everywhere P) : ∀ d ∈ i.declarations, P d := by
  induction h with
  | declaration h =>
    rw [Item.declarations]
    exact (Declaration.everywhere_iff_withNested _).mp h
  | scope h ih =>
    rw [Item.declarations, Item.declarationsOf_eq_flatMap]
    exact List.forall_mem_flatMap.mpr ih
  | directive u => exact List.forall_mem_nil _
  | raw code => exact List.forall_mem_nil _
  | comment text => exact List.forall_mem_nil _

namespace CompilationUnit

/-- **The code of a tree balances.** If a source has a tree, then every loose statement, every
statement of a block, every initializer, every value behind an arrow and every property body kept as
written is a run of its tokens in which the brackets balance, and its text can be put anywhere
without opening or closing a bracket around it. -/
theorem fragments_balance {ext : Extensions} {source : String} {base : Nat} {u : CompilationUnit}
    (h : parse ext source base = .ok u) :
    ∃ ts eof, Token.tokenize source base = .ok (ts ++ [eof]) ∧ eof.isEof = true ∧
      ∀ d ∈ u.declarations, ∀ v ∈ d.fragments, v.IsCode ts ∧ v.Movable := by
  obtain ⟨ts, eof, htokens, heof, hdrawn⟩ := exists_drawn_of_parse (W := fun _ => True)
    (fun _ _ => trivial) (fun _ _ _ _ => trivial) h
  refine ⟨ts, eof, htokens, heof, fun d hd v hv => ?_⟩
  rw [declarations, Item.declarationsOf_eq_flatMap] at hd
  obtain ⟨i, hi, hd⟩ := List.mem_flatMap.mp hd
  have hcode := ((hdrawn i hi).everywhere.forall_mem_declarations d hd).code v hv
  exact ⟨hcode, hcode.movable htokens⟩

/-- Code in every place where a class can hold it, with a bracket in a literal that counts for
nothing. -/
def codeEverywhere : String :=
  "class A \x7b int a = f(1); int P \x7b get \x7b return a; \x7d \x7d = 2; A() => g(a);\n" ++
    "  void M() \x7b if (a) \x7b h(); \x7d else k(); \x7d int Q => (3);\n" ++
    "  s(a, @\")\"); class B \x7b j(); \x7d \x7d"

theorem fragments_balance_codeEverywhere :
    ∃ u, parse {} codeEverywhere 0 = .ok u ∧
      (u.declarations.map fun d => d.fragments.map Verbatim.text) =
        [["f(1)", "\x7b get \x7b return a; \x7d \x7d", "2", "g(a)",
          "if (a) \x7b h(); \x7d else k();", "(3)", "s(a, @\")\");"], ["j();"]] ∧
      ∃ ts eof, Token.tokenize codeEverywhere 0 = .ok (ts ++ [eof]) ∧ eof.isEof = true ∧
        ∀ d ∈ u.declarations, ∀ v ∈ d.fragments, v.IsCode ts ∧ v.Movable := by
  have hrun : (parse {} codeEverywhere 0).toOption.map (fun u =>
        u.declarations.map fun d => d.fragments.map Verbatim.text) =
      some [["f(1)", "\x7b get \x7b return a; \x7d \x7d", "2", "g(a)",
        "if (a) \x7b h(); \x7d else k();", "(3)", "s(a, @\")\");"], ["j();"]] := by
    decide +kernel
  obtain ⟨u, h, hrun⟩ := exists_ok_of_map hrun
  exact ⟨u, h, hrun, fragments_balance h⟩

end CompilationUnit

end ClassSugar
