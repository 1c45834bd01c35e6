import Mathlib.Data.List.DropRight
import ClassSugar.Desugar.Assembly

/-!
# The parts of a body

Two things in the body of a declaration ask for work: parameters that are asserted not to be null,
and loose statements before the members. This module says where they are found.

* A declaration is *free of marks* (`Declaration.MarkFree`) if no parameter of its header or of a
  member is asserted; then there is no place to check and no assertion at fault.
* A body has three parts (`Declaration.body_split`): the unnamed initializer, comments after its last
  statement, and everything from the first member on. Taking the first part away leaves no statement
  before the members, and loses no statement after the first of them.
-/

namespace ClassSugar

/-! ### Null assertions -/

/-- No parameter, of the header or of a member, is asserted not to be null. -/
structure Declaration.MarkFree (d : Declaration) : Prop where
  header : ∀ p ∈ d.primaryParams, p.nullAssertion = none
  members : ∀ m ∈ d.members, ∀ p ∈ m.params, p.nullAssertion = none

/-- No position is asserted exactly if no parameter is. -/
theorem Parameter.asserted_eq_nil_iff {params : List Parameter} :
    Parameter.asserted params = [] ↔ ∀ p ∈ params, p.nullAssertion = none := by
  unfold Parameter.asserted
  rw [List.filterMap_eq_nil_iff]
  constructor
  · intro h p hp
    obtain ⟨i, hi⟩ := List.getElem?_of_mem hp
    simpa using h (p, i) (List.mem_zipIdx_iff_getElem?.mpr hi)
  · rintro h ⟨p, i⟩ hpi
    simp [h p (List.fst_mem_of_mem_zipIdx hpi)]

namespace Declaration

variable {d : Declaration}

theorem mem_members {m : Member} : m ∈ d.members ↔ .member m ∈ d.body := by
  unfold members
  rw [List.mem_filterMap]
  constructor
  · rintro ⟨item, hitem, hm⟩
    cases item <;> simp_all [BodyItem.member?]
  · exact fun h => ⟨.member m, h, rfl⟩

/-- There is no place with asserted parameters exactly if no parameter is asserted. -/
theorem nullSites_eq_nil_iff : d.nullSites = [] ↔ d.MarkFree := by
  have hsites : d.nullSites = [] ↔
      ∀ owner params, (owner, params) ∈ d.paramOwners → Parameter.asserted params = [] := by
    unfold nullSites
    rw [List.filterMap_eq_nil_iff]
    simp
  rw [hsites]
  simp only [Parameter.asserted_eq_nil_iff, paramOwners, List.mem_cons, List.mem_filterMap]
  constructor
  · intro h
    refine ⟨h .constructor d.primaryParams (.inl rfl), fun m hm => ?_⟩
    obtain ⟨i, hi⟩ := List.getElem?_of_mem (mem_members.mp hm)
    exact h (.member i) m.params
      (.inr ⟨(.member m, i), List.mem_zipIdx_iff_getElem?.mpr hi, rfl⟩)
  · rintro h owner params (heq | ⟨⟨item, i⟩, hitem, howner⟩)
    · cases heq
      exact h.header
    · obtain ⟨m, hm, heq⟩ := Option.map_eq_some_iff.mp howner
      cases heq
      have hbody : item ∈ d.body := List.fst_mem_of_mem_zipIdx hitem
      cases item <;> simp only [BodyItem.member?, Option.some.injEq, reduceCtorEq] at hm
      exact h.members m (mem_members.mpr (hm ▸ hbody))

/-- Without an assertion no assertion is at fault. -/
theorem assertionFault?_of_markFree (h : d.MarkFree) (nullableContext : Bool) :
    d.assertionFault? nullableContext = none := by
  have hparam : ∀ params : List Parameter, (∀ p ∈ params, p.nullAssertion = none) →
      params.findSome? (Parameter.assertionFault? nullableContext) = none := by
    intro params hparams
    rw [List.findSome?_eq_none_iff]
    intro p hp
    simp [Parameter.assertionFault?, hparams p hp]
  have hmember : ∀ m ∈ d.members, m.assertionFault? nullableContext = none := by
    intro m hm
    unfold Member.assertionFault?
    rw [hparam m.params (h.members m hm)]
    cases m with
    | method k =>
      have hfind : k.params.find? (·.nullAssertion.isSome) = none := by
        rw [List.find?_eq_none]
        intro p hp
        simp [h.members _ hm p hp]
      simp [hfind]
    | _ => rfl
  unfold assertionFault?
  rw [hparam _ h.header, List.findSome?_eq_none_iff.mpr hmember]
  rfl

end Declaration

/-! ### Loose statements -/

namespace Declaration

variable (d : Declaration)

theorem take_firstMemberIndex :
    d.body.take d.firstMemberIndex = d.body.takeWhile fun item => !item.isMember := by
  simp [firstMemberIndex, List.takeWhile_eq_take_findIdx_not]

theorem drop_firstMemberIndex :
    d.body.drop d.firstMemberIndex = d.body.dropWhile fun item => !item.isMember := by
  simp [firstMemberIndex, List.dropWhile_eq_drop_findIdx_not]

/-- **The three parts of a body**: what belongs to the unnamed initializer, comments after its last
statement, and everything from the first member on. -/
theorem body_split :
    ∃ opening quiet, d.body = opening ++ (quiet ++ d.body.drop d.firstMemberIndex) ∧
      opening.length = d.initializerLength ∧
      (∀ item ∈ opening, item.isMember = false) ∧
      ∀ item ∈ quiet, item.isMember = false ∧ item.isStatement = false := by
  obtain ⟨lead, hlead⟩ : ∃ lead, d.body.take d.firstMemberIndex = lead := ⟨_, rfl⟩
  have hloose : ∀ item ∈ lead, item.isMember = false := by
    intro item hitem
    rw [← hlead, take_firstMemberIndex] at hitem
    simpa using List.mem_takeWhile_imp hitem
  have hparts : lead.rdropWhile (fun item => !item.isStatement) ++
      lead.rtakeWhile (fun item => !item.isStatement) = lead := by
    simp [List.rdropWhile, List.rtakeWhile, ← List.reverse_append]
  refine ⟨lead.rdropWhile fun item => !item.isStatement,
    lead.rtakeWhile fun item => !item.isStatement, ?_, ?_, ?_, ?_⟩
  · rw [← List.append_assoc, hparts, ← hlead, List.take_append_drop]
  · simp [List.rdropWhile, initializerLength, hlead]
  · exact fun item hitem => hloose item (hparts ▸ List.mem_append_left _ hitem)
  · intro item hitem
    refine ⟨hloose item (hparts ▸ List.mem_append_right _ hitem), ?_⟩
    simpa using List.mem_rtakeWhile_imp hitem

/-- The unnamed initializer has no members. -/
theorem isMember_eq_false_of_mem_take {item : BodyItem}
    (h : item ∈ d.body.take d.initializerLength) : item.isMember = false := by
  obtain ⟨opening, quiet, hbody, hlength, hopening, -⟩ := d.body_split
  rw [hbody, ← hlength, List.take_left] at h
  exact hopening item h

/-- No loose statement stands before the members of the body without its initializer. -/
theorem isStatement_eq_false_of_initializerLength {item : BodyItem}
    (h : item ∈ (d.body.drop d.initializerLength).takeWhile fun item => !item.isMember) :
    item.isStatement = false := by
  obtain ⟨opening, quiet, hbody, hlength, -, hquiet⟩ := d.body_split
  have hrest : (d.body.drop d.firstMemberIndex).takeWhile (fun item => !item.isMember) = [] := by
    rw [drop_firstMemberIndex, List.takeWhile_eq_nil_iff]
    intro hlt
    exact List.dropWhile_get_zero_not _ _ hlt
  rw [hbody, ← hlength, List.drop_left, List.takeWhile_append_of_pos, hrest, List.append_nil] at h
  · exact (hquiet item h).2
  · intro a ha
    simp [(hquiet a ha).1]

/-- There is no unnamed initializer exactly if no statement stands before the members. -/
theorem initializerLength_eq_zero_iff :
    d.initializerLength = 0 ↔
      ∀ item ∈ d.body.takeWhile fun item => !item.isMember, item.isStatement = false := by
  unfold initializerLength
  rw [take_firstMemberIndex, List.length_eq_zero_iff, List.dropWhile_eq_nil_iff]
  simp

@[simp] theorem looseStatements_nil : looseStatements [] = [] := rfl

theorem looseStatements_append (a b : List BodyItem) :
    looseStatements (a ++ b) = looseStatements a ++ looseStatements b :=
  List.filterMap_append

theorem looseStatements_eq_nil {items : List BodyItem}
    (h : ∀ item ∈ items, item.isStatement = false) : looseStatements items = [] := by
  unfold looseStatements
  rw [List.filterMap_eq_nil_iff]
  intro item hitem
  have hstatement := h item hitem
  cases item <;> simp_all [BodyItem.isStatement]

/-- The statements left without the initializer are those after the first member. -/
theorem looseStatements_drop_initializerLength :
    looseStatements (d.body.drop d.initializerLength) =
      looseStatements (d.body.drop d.firstMemberIndex) := by
  obtain ⟨opening, quiet, hbody, hlength, -, hquiet⟩ := d.body_split
  conv_lhs => rw [hbody, ← hlength, List.drop_left]
  rw [looseStatements_append, looseStatements_eq_nil fun item hitem => (hquiet item hitem).2,
    List.nil_append]

end Declaration

end ClassSugar
