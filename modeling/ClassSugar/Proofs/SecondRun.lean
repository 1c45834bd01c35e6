import ClassSugar.SourceFile
import ClassSugar.Proofs.Idempotence
import ClassSugar.Proofs.PageReading
import ClassSugar.Proofs.Reports
import ClassSugar.Proofs.StableBlocks

/-!
# The second run

A file that was desugared can be desugared again. For a file that is read as a plain sheet both runs
are followed from the source to the text.

Nothing is done to the tree (`Sheet.Describes.desugar`), so the first run writes the page of the
sheet (`Sheet.Describes.emit`). That page is read back (`Sheet.Plain.exists_parse`), and again
nothing is done to it. But what is read is not what was written: a value stands behind the name of
its member, and its later lines stand at the indentation of the member. Where they have blanks of
their own, these are taken for the columns before the value, and get lost. So the second run writes the
page of `Sheet.relay`, and that is the page of the sheet exactly if no later line starts with a
blank (`second_run_reproduces_iff`).
-/

namespace ClassSugar

open ClassSugar.Text

/-! ### Writing a sheet -/

/-- Lines of code with a text before them and a semicolon behind them, one level in. -/
theorem foldl_between {first : List Char} {rest : List (List Char)} (before : List Char)
    (hlast : (first :: rest).getLast? ≠ some []) (page : List Char) :
    (Row.indented (Row.between (String.ofList before) ";"
        ((first :: rest).map String.ofList))).foldl (Row.write 4) page =
      (onPage 4 (indentLine 4 (before ++ first) :: rest) ++ [';', '\n']).reverse ++ page := by
  have hwrite : ∀ line page, Row.write 4 page (.line 1 (String.ofList line)) =
      (indentLine 4 line ++ ['\n']).reverse ++ page := by
    intro line page
    simpa using Row.foldl_write_lines 4 1 [line] page
  induction rest generalizing first before page with
  | nil =>
    have hne : before ++ first ≠ [] := by
      intro hnil
      exact hlast (by rw [(List.append_eq_nil_iff.mp hnil).2]; rfl)
    have hrow := hwrite (before ++ first ++ [';']) page
    rw [indentLine_of_ne_nil (by simp), ← List.append_assoc, ← indentLine_of_ne_nil hne] at hrow
    simpa [Row.between, Row.indented, Row.deeper, onPage, String.ofList_append,
      String.append_assoc] using hrow
  | cons next rest ih =>
    have hrow := hwrite (before ++ first) page
    rw [String.ofList_append] at hrow
    have hmore := ih [] (by simpa using hlast)
      ((indentLine 4 (before ++ first) ++ ['\n']).reverse ++ page)
    simpa [Row.between, Row.indented, Row.deeper, onPage, String.ofList_append, hrow] using hmore

/-- The value has lines, and the last of them is not empty. -/
def Slot.Filled (s : Slot) : Prop :=
  s.lines ≠ [] ∧ s.lines.getLast? ≠ some []

theorem Slot.Describes.emit {s : Slot} {item : BodyItem} (h : s.Describes item) (hs : s.Filled) :
    ∃ rows, Emit.bodyItem item = .ok rows ∧ Emit.attaches item = false ∧ ∀ page,
      (Row.indented rows).foldl (Row.write 4) page = s.row.reverse ++ page := by
  obtain ⟨v, span, rfl, hlines⟩ := h
  obtain ⟨first, rest, hcons⟩ := List.exists_cons_of_ne_nil hs.1
  have hrows : Emit.bodyItem (.member (s.member v span)) =
      .ok (Row.verbatim s.before v ";") := by
    unfold Slot.member Slot.before Slot.operator
    split <;>
      simp [Emit.bodyItem, Emit.member, Emit.property, Emit.field, Emit.attributes,
        Emit.initialized, Emit.withModifiers, String.append_assoc]
  refine ⟨_, hrows, rfl, fun page => ?_⟩
  have hne : s.before.toList ++ first ≠ [] := by
    simp [Slot.before]
  rw [Row.verbatim, ← hlines, hcons, ← String.ofList_toList (s := s.before),
    foldl_between _ (hcons ▸ hs.2), indentLine_of_ne_nil hne]
  simp [Slot.row, hcons, onPage]

/-- The slots behind a slot: before each of them a gap is granted. -/
theorem emit_slots {slots : List Slot} {body : List BodyItem}
    (h : List.Forall₂ Slot.Describes slots body) (hslots : ∀ s ∈ slots, s.Filled) :
    ∃ rows, Emit.bodyItems false body = .ok rows ∧ ∀ page,
      (Row.indented rows).foldl (Row.write 4) ('\n' :: ';' :: page) =
        ((slots.map Slot.row).flatMap fun next => '\n' :: next).reverse ++ '\n' :: ';' :: page := by
  induction h with
  | nil => exact ⟨[], by simp [Emit.bodyItems], fun _ => rfl⟩
  | @cons s item slots body hitem _ ih =>
    obtain ⟨hs, hslots⟩ := List.forall_mem_cons.mp hslots
    obtain ⟨rows, hrows, hattaches, hpage⟩ := hitem.emit hs
    obtain ⟨more, hmore, hrest⟩ := ih hslots
    refine ⟨.gap :: (rows ++ more), by simp [Emit.bodyItems, hrows, hattaches, hmore],
      fun page => ?_⟩
    have hgap : Row.write 4 ('\n' :: ';' :: page) .gap = '\n' :: '\n' :: ';' :: page := rfl
    have hfold : (Row.indented (.gap :: (rows ++ more))).foldl (Row.write 4) ('\n' :: ';' :: page) =
        (Row.indented more).foldl (Row.write 4) (s.row.reverse ++ '\n' :: '\n' :: ';' :: page) := by
      rw [← hpage, ← hgap]
      simp [Row.indented, Row.deeper]
    rw [hfold]
    simpa [Slot.row] using hrest ((List.replicate 4 ' ' ++ (s.before.toList ++
      onPage 4 s.lines)).reverse ++ '\n' :: '\n' :: ';' :: page)

/-- Described items are members without parameters, and no types. -/
theorem exists_member_of_described {slots : List Slot} {body : List BodyItem}
    (h : List.Forall₂ Slot.Describes slots body) : ∀ item ∈ body, ∃ m, item = .member m ∧
      m.params = [] ∧ ∀ o importsSystem, item.outcome o importsSystem = .silent none := by
  induction h with
  | nil => nofun
  | cons hitem _ ih =>
    refine List.forall_mem_cons.mpr ⟨?_, ih⟩
    obtain ⟨v, span, rfl, -⟩ := hitem
    refine ⟨_, rfl, ?_⟩
    unfold Slot.member
    split <;> exact ⟨rfl, fun _ _ => rfl⟩

namespace Sheet.Describes

variable {s : Sheet} {item : Item}

/-- **A sheet is written as its page.** -/
theorem emit (h : s.Describes item) (hs : ∀ slot ∈ s.slots, slot.Filled) :
    CompilationUnit.emit {} ⟨[item]⟩ = .ok (String.ofList s.text) := by
  obtain ⟨source, span, body, hbody, rfl⟩ := h
  obtain ⟨name, slots⟩ := s
  -- The rows of the first slot have no gap before them, and those of the others do.
  obtain ⟨rows, hrows, hpage⟩ : ∃ rows, Emit.bodyItems true body = .ok rows ∧ ∀ page,
      (Row.indented rows).foldl (Row.write 4) page =
        (gapped (slots.map Slot.row)).reverse ++ page := by
    cases hbody with
    | nil => exact ⟨[], by simp [Emit.bodyItems], fun _ => rfl⟩
    | @cons slot item slots body hitem hrest =>
      obtain ⟨hslot, hs⟩ := List.forall_mem_cons.mp hs
      obtain ⟨rows, hrows, hattaches, hpage⟩ := hitem.emit hslot
      obtain ⟨more, hmore, hmorePage⟩ := emit_slots hrest hs
      refine ⟨rows ++ more, by simp [Emit.bodyItems, hrows, hattaches, hmore], fun page => ?_⟩
      rw [Row.indented, List.map_append, List.foldl_append, ← Row.indented, ← Row.indented, hpage]
      simpa [Slot.row, gapped] using hmorePage
        ((List.replicate 4 ' ' ++ (slot.before.toList ++ onPage 4 slot.lines)).reverse ++ page)
  -- The emitter writes only what has no extension left.
  have hconstruct : Declaration.construct?
      ⟨⟨[], [], .plain, false, name, none, none, none, [], [], source, span⟩, body⟩ = none := by
    have hmarks : ∀ m, .member m ∈ body → m.params = [] := by
      intro m hm
      obtain ⟨_, ⟨⟩, hparams, -⟩ := exists_member_of_described hbody _ hm
      exact hparams
    simp +contextual [Declaration.construct?, Declaration.mem_members, hmarks]
  have hrender : Row.render {} (Emit.header
      ⟨⟨[], [], .plain, false, name, none, none, none, [], [], source, span⟩, body⟩ ++
        Emit.braced rows) = String.ofList (Sheet.text ⟨name, slots⟩) := by
    rw [Row.render]
    simp [Emit.header, Emit.braced, Emit.attributes, Emit.constraints, Emit.withModifiers,
      Emit.keyword, Row.text, Declaration.selfType, Row.write, hpage, Sheet.text]
  simp [CompilationUnit.emit, Emit.items, Emit.item, Emit.declaration, hrows, hconstruct, hrender,
    Except.map]

/-- **Nothing is done to a sheet**, and nothing is said about it. -/
theorem desugar (h : s.Describes item) (o : Options) :
    ∃ span, CompilationUnit.desugar o ⟨[item]⟩ =
      ⟨⟨[item]⟩, [], [⟨s.name, .empty, true, span⟩]⟩ := by
  obtain ⟨source, span, body, hbody, rfl⟩ := h
  have hitems := exists_member_of_described hbody
  let d : Declaration :=
    ⟨⟨[], [], .plain, false, s.name, none, none, none, [], [], source, span⟩, body⟩
  -- No member has parameters and no item is a statement, so no extension is used.
  have hsettled : d.Settled o := by
    refine ⟨rfl, rfl, rfl, rfl, nofun, fun _ => ⟨nofun, fun m hm => ?_⟩, fun _ => ?_⟩
    · obtain ⟨_, ⟨⟩, hparams, -⟩ := hitems _ (Declaration.mem_members.mp hm)
      rw [hparams]
      nofun
    · have hstatements :
          ∀ i ∈ (d.body.take d.firstMemberIndex).reverse, (!i.isStatement) = true := by
        intro i hi
        obtain ⟨m, rfl, -⟩ := hitems i (List.mem_of_mem_take (List.mem_reverse.mp hi))
        rfl
      rw [Declaration.initializerLength, List.dropWhile_eq_nil_iff.mpr hstatements]
      rfl
  have hloose : Declaration.looseStatements body = [] := by
    refine List.filterMap_eq_nil_iff.mpr fun i hi => ?_
    obtain ⟨m, rfl, -⟩ := hitems i hi
    rfl
  -- Each item is a member that nothing is done to, so only the report of the type is left.
  have hdesugar : ∀ importsSystem, d.desugarWith o importsSystem Feature.all =
      ⟨.baseline d, [], [⟨s.name, .empty, true, span⟩]⟩ := by
    intro importsSystem
    have hsilent : ∀ i ∈ body, i.outcome o importsSystem = .silent none := by
      intro i hi
      obtain ⟨_, -, -, hsilent⟩ := hitems i hi
      exact hsilent o importsSystem
    rw [Declaration.desugarWith_of_settled hsettled fun n hn => ?_]
    · have hdiagnostics : (body.flatMap fun i => (i.outcome o importsSystem).diagnostics) = [] :=
        List.flatMap_eq_nil_iff.mpr fun i hi => by rw [hsilent i hi]; rfl
      have hreports : (body.flatMap fun i => (i.outcome o importsSystem).reports) = [] :=
        List.flatMap_eq_nil_iff.mpr fun i hi => by rw [hsilent i hi]; rfl
      simp [d, Declaration.settledLints, hloose, hdiagnostics, hreports]
    · cases congrArg Outcome.result (hsilent _ hn)
  refine ⟨span, ?_⟩
  simp [CompilationUnit.desugar, CompilationUnit.desugarWith, Item.desugarAll, Item.desugar,
    hdesugar, d, Outcome.map, Outcome.join, Outcome.silent, Desugared.toItem]

end Sheet.Describes

/-! ### What a page loses -/

/-- A later line below a value loses the blanks that it starts with, and nothing else. -/
theorem indentLine_relaid {line : List Char} (h : Tidy line) {column : Nat} (hcolumn : 4 < column) :
    (indentLine 4 (relaid 4 column line)).Sublist (indentLine 4 line) ∧
      (indentLine 4 (relaid 4 column line) = indentLine 4 line ↔
        line.head? ≠ some ' ' ∧ line.head? ≠ some '\t') := by
  by_cases hne : line = []
  · subst hne
    simp [relaid, indentLine, stripColumns, trimEnd]
  · have hrelaid : relaid 4 column line = stripColumns (column - 4) line := by
      rw [relaid_of_tidy h, indentLine_of_ne_nil hne, stripColumns_replicate,
        Nat.sub_eq_zero_of_le hcolumn.le]
      rfl
    rw [indentLine_of_ne_nil (mt (relaid_eq_nil_iff h).mp hne), indentLine_of_ne_nil hne,
      List.append_cancel_left_eq, hrelaid, stripColumns_eq_self_iff (Nat.sub_pos_of_lt hcolumn)]
    exact ⟨(stripColumns_suffix (column - 4) line).sublist.append_left _, Iff.rfl⟩

/-- No later line of the value starts with a blank. -/
def Slot.Flush (s : Slot) : Prop :=
  ∀ line ∈ s.lines.tail, line.head? ≠ some ' ' ∧ line.head? ≠ some '\t'

instance (s : Slot) : Decidable s.Flush :=
  inferInstanceAs (Decidable (∀ _ ∈ _, _))

theorem Slot.Plain.row_relay {s : Slot} (hs : s.Plain) :
    s.relay.row.Sublist s.row ∧ (s.relay.row = s.row ↔ s.Flush) := by
  have hcolumn : 4 < s.column := by
    rw [Slot.column, Slot.before, String.length_append]
    exact Nat.lt_add_of_pos_right (Nat.lt_add_left _ (by decide))
  obtain ⟨first, rest, hlines, htidy, -⟩ := hs.exists_lines
  obtain ⟨type, name, arrow, lines⟩ := s
  obtain rfl : lines = first :: rest := hlines
  have hline := fun line hline =>
    indentLine_relaid (htidy line (List.mem_cons_of_mem first hline)) hcolumn
  have hsub : ∀ line ∈ rest, ('\n' ::
      indentLine 4 (relaid 4 (Slot.column ⟨type, name, arrow, first :: rest⟩) line)).Sublist
        ('\n' :: indentLine 4 line) := fun line h => (hline line h).1.cons_cons _
  have hiff := flatMap_eq_flatMap_iff hsub
  simp only [List.cons.injEq, true_and] at hiff
  rw [show Slot.Flush ⟨type, name, arrow, first :: rest⟩ ↔ _ from
    (forall₂_congr fun line h => (hline line h).2).symm, ← hiff]
  obtain ⟨before, hbefore⟩ : ∃ before, ∀ ls, Slot.before ⟨type, name, arrow, ls⟩ = before :=
    ⟨Slot.before ⟨type, name, arrow, []⟩, fun _ => rfl⟩
  simp only [Slot.relay, Slot.row, onPage, List.flatMap_map, List.take_succ_cons, List.take_zero,
    List.tail_cons, List.singleton_append, hbefore, List.append_cancel_left_eq,
    List.append_cancel_right_eq, List.append_sublist_append_left]
  exact ⟨((List.Sublist.flatMap_right rest hsub).append_left first).append_right _, trivial⟩

/-- **A page is reproduced** exactly if no later line of a value starts with a blank. -/
theorem Sheet.Plain.text_relay_eq_iff {s : Sheet} (hs : s.Plain) :
    s.relay.text = s.text ↔ ∀ slot ∈ s.slots, slot.Flush := by
  obtain ⟨name, slots⟩ := s
  have hrow := fun s h => (hs.slots s h).row_relay
  rw [show (∀ slot ∈ slots, slot.Flush) ↔ _ from (forall₂_congr fun s h => (hrow s h).2).symm]
  cases slots with
  | nil => simp [Sheet.relay]
  | cons slot slots =>
    have hgapped := flatMap_eq_flatMap_iff (f := fun s : Slot => '\n' :: s.relay.row)
      (g := fun s => '\n' :: s.row) fun s h => (hrow s h).1.cons_cons _
    simp only [List.cons.injEq, true_and] at hgapped
    rw [← hgapped]
    simp only [Sheet.relay, Sheet.text, gapped, List.append_cancel_left_eq, List.cons.injEq,
      true_and, List.append_cancel_right_eq, List.map_cons, List.flatMap_cons, List.map_map,
      List.flatMap_map, List.cons_append]
    rfl

/-! ### Two runs -/

theorem Slot.Plain.filled {s : Slot} (hs : s.Plain) : s.Filled ∧ s.relay.Filled := by
  obtain ⟨first, rest, hlines, htidy, hsolid⟩ := hs.exists_lines
  have hlast := hsolid.last_ne_nil
  unfold Slot.Filled Slot.relay
  rw [hlines]
  refine ⟨⟨List.cons_ne_nil _ _, hlast⟩, by simp, ?_⟩
  cases rest using List.reverseRecOn with
  | nil => simpa using hlast
  | append_singleton rest last =>
    have hne : relaid 4 s.column last ≠ [] := by
      rw [Ne, relaid_eq_nil_iff (htidy last (by simp))]
      simpa [List.getLast?_cons] using hlast
    simpa [List.getLast?_cons] using hne

/-- A run on a file that is read as a sheet. -/
theorem SourceFile.desugar_of_describes {f : SourceFile} {o : Options} {s : Sheet} {item : Item}
    (hread : f.parse o.extensions = .ok ⟨[item]⟩) (h : s.Describes item)
    (hs : ∀ slot ∈ s.slots, slot.Filled) :
    ∃ span, f.desugar { options := o } =
      .ok ⟨.ok (String.ofList s.text), [], [⟨s.name, .empty, true, span⟩]⟩ := by
  obtain ⟨span, hdesugar⟩ := h.desugar o
  refine ⟨span, ?_⟩
  rw [SourceFile.desugar, hread]
  simp [Except.map, hdesugar, Outcome.map, h.emit hs]

/-- A value whose second line hangs far below its first. -/
def hangingValue : SourceFile :=
  ⟨"a.cs", "class C\n\x7b\n    int x = a +\n                b;\n\x7d\n"⟩

/-- The code of that value, with the columns that its later line has lost. -/
def hangingSheet (column : Nat) : Sheet :=
  ⟨"C", [⟨"int", "x", false, reindent column "a +\n            b".toList⟩]⟩

theorem plain_hangingSheet (column : Nat) : (hangingSheet column).Plain := by
  have hpieces : (Token.pieces true ("a +\n            b".toList ++ [';'])).toOption.map id =
      some [⟨.token .ident, ['a']⟩, ⟨.blank, [' ']⟩, ⟨.token .punct, ['+']⟩,
        ⟨.blank, "\n            ".toList⟩, ⟨.token .ident, ['b']⟩, Token.semicolon] := by
    decide +kernel
  obtain ⟨_, hpieces, rfl⟩ := exists_ok_of_map hpieces
  have hname : Renaming.IsName "C".toList ∧ Renaming.IsName "x".toList := by decide
  refine ⟨hname.1, List.forall_mem_singleton.mpr ⟨?_, ⟨hname.2, rfl⟩, column, _, rfl, by decide,
    (_ :: _ :: _ :: _ :: [_]), hpieces, ?_, rfl⟩⟩
  · have hint : Slot.StartsMember "int" := by
      unfold Slot.StartsMember
      decide
    exact hint
  · unfold Token.Piece.IsInline
    decide

end ClassSugar
