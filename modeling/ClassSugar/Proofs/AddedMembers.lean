import ClassSugar.Proofs.LooseStatements
import Mathlib.Data.List.Nodup

/-!
# The names of new members

Desugaring adds members under names of its own choice: the holder and the accessor of a singleton,
a field for each parameter that is captured and a property for each that declares one. Four tests
keep these names apart from the ones that are declared, and all four compare spellings
(`Declaration.declaresMember`). An identifier has two spellings, with the mark `@` and without it.

* `Context.declaresMember_newName` — no new member is spelled like a declared one.
* `new_names_apart_iff` — new members have different names. They are different from the declared ones
  too, exactly if no member is declared under the other spelling of a new name.
-/

namespace ClassSugar

open Identifier

/-- The name of a member that is not a constructor. -/
def Member.ownName? : Member → Option String
  | .constructor _ => none
  | m => m.name?

/-- The names of the fields, properties, methods and types that are declared. -/
def Declaration.declaredNames (d : Declaration) : List String :=
  d.members.filterMap Member.ownName?

theorem Declaration.declaresMember_of_mem_declaredNames {d : Declaration} {name : String}
    (h : name ∈ d.declaredNames) : d.declaresMember name = true := by
  obtain ⟨m, hm, hname⟩ := List.mem_filterMap.mp h
  refine declaresMember_of_mem hm ?_
  cases m with
  | constructor k => cases hname
  | field _ | property _ | method _ | type _ | raw _ => exact hname

namespace Context

/-- The members that are added, the constructor aside. -/
def newMembers (c : Context) : List Member :=
  (if c.recognition.features.singletonMarker then [.field c.holder] else []) ++
  (c.declaration.primaryParams.filter c.isCaptured).map (fun p => .field (captureField p)) ++
  (c.declaration.primaryParams.filter c.isShorthand).map
    (fun p => .property (c.shorthandProperty p)) ++
  (if c.recognition.features.singletonMarker then [.property c.accessor] else [])

/-- The names of the members that are added. -/
def newNames (c : Context) : List String :=
  c.newMembers.filterMap Member.name?

theorem newNames_eq (c : Context) :
    c.newNames =
      (if c.recognition.features.singletonMarker then [c.declaration.holderName] else []) ++
      (c.declaration.primaryParams.filter c.isCaptured).map Parameter.name ++
      (c.declaration.primaryParams.filter c.isShorthand).map Parameter.name ++
      (if c.recognition.features.singletonMarker then [Declaration.instanceName] else []) := by
  unfold newNames newMembers
  simp only [List.filterMap_append, List.filterMap_map]
  congr 1
  · congr 1
    · congr 1
      · split <;> rfl
      · exact congrFun (List.filterMap_eq_map (f := Parameter.name)) _
    · exact congrFun (List.filterMap_eq_map (f := Parameter.name)) _
  · split <;> rfl

section Apart

variable {o : Options} {importsSystem : Bool} {d : Declaration} {c : Context}
  (hc : Context.of o importsSystem d = c) (hfault : d.fault? o = none)
include hc hfault

/-- The new names of a declaration are two for a singleton, and else they are those of parameters. -/
theorem newNames_cases :
    (d.SingletonReady ∧ c.newNames = [d.holderName, Declaration.instanceName]) ∨
      c.newNames = (d.primaryParams.filter c.isCaptured).map Parameter.name ++
        (d.primaryParams.filter c.isShorthand).map Parameter.name := by
  have hdeclaration : c.declaration = d := hc ▸ rfl
  rw [newNames_eq, hdeclaration]
  cases hmarker : c.recognition.features.singletonMarker with
  | true =>
    left
    have hboth : (o.extensions.singleton && d.singleton) = true := by
      rw [← hmarker, ← hc]
      rfl
    obtain ⟨hon, hmark⟩ := Bool.and_eq_true_iff.mp hboth
    have hready := Declaration.singletonReady_of_fault?_eq_none hon hmark hfault
    refine ⟨hready, ?_⟩
    rw [hready.params]
    rfl
  | false =>
    right
    simp

/-- A property that has the spelling of a declared member is refused. -/
theorem declaresMember_shorthand {p : Parameter} (hp : p ∈ d.primaryParams)
    (hshorthand : c.isShorthand p = true) :
    d.declaresMember p.name = false := by
  have hboth : (o.extensions.propertyShorthand && p.isCapitalized) = true := by
    rw [← hshorthand, ← hc]
    rfl
  obtain ⟨hon, hcapital⟩ := Bool.and_eq_true_iff.mp hboth
  have hnone : d.shorthandFault? d.capitalizedParams = none := by
    simp only [Declaration.fault?, hon, if_true, Option.orElse_eq_orElse, Option.orElse_eq_or,
      Option.or_eq_none_iff] at hfault
    exact hfault.1
  rw [Declaration.shorthandFault?, Option.map_eq_none_iff, List.find?_eq_none] at hnone
  obtain ⟨i, hi⟩ := List.getElem?_of_mem hp
  have hposition : i ∈ d.capitalizedParams := by
    simp [Declaration.capitalizedParams, List.mem_zipIdx_iff_getElem?, hi, hcapital]
  have hmem : p ∈ d.paramsAt d.capitalizedParams := List.mem_filterMap.mpr ⟨i, hposition, hi⟩
  simpa using hnone p hmem

/-- **No new member is spelled like a declared one.** -/
theorem declaresMember_newName {name : String} (h : name ∈ c.newNames) :
    d.declaresMember name = false := by
  rcases newNames_cases hc hfault with ⟨hready, hnames⟩ | hnames
  · rw [hnames, List.mem_cons, List.mem_singleton] at h
    rcases h with rfl | rfl
    · obtain ⟨n, hname, hfree, -⟩ := d.holderName_spec
      rw [hname]
      exact hfree
    · exact hready.instanceFree
  · rw [hnames, List.mem_append] at h
    rcases h with hcaptured | hshorthand
    · obtain ⟨p, hp, rfl⟩ := List.mem_map.mp hcaptured
      exact ((isCaptured_iff hc).mp (List.mem_filter.mp hp).2).2.1
    · obtain ⟨p, hp, rfl⟩ := List.mem_map.mp hshorthand
      obtain ⟨hmem, hshorthand⟩ := List.mem_filter.mp hp
      exact declaresMember_shorthand hc hfault hmem hshorthand

/-- New members have different names, if the primary parameters have. -/
theorem nodup_newNames (hdistinct : (d.primaryParams.map fun p => bare p.name).Nodup) :
    (c.newNames.map bare).Nodup := by
  rcases newNames_cases hc hfault with ⟨-, hnames⟩ | hnames
  · -- The holder starts with an underscore, whichever number it has.
    have hholder : bare d.holderName ≠ bare Declaration.instanceName := by
      obtain ⟨n, hname, -⟩ := d.holderName_spec
      intro heq
      have hchars : bareChars (holderCandidate n) = bareChars Declaration.instanceName := by
        rw [← hname]
        exact String.ofList_injective heq
      cases n with
      | zero => exact absurd hchars (by decide)
      | succ n =>
        have hhead := congrArg List.head? hchars
        rw [holderCandidate, bareChars, String.toList_append] at hhead
        cases hhead
    rw [hnames]
    simpa using hholder
  · rw [hnames, ← List.map_append, List.map_map]
    have hinj : ∀ p ∈ d.primaryParams, ∀ q ∈ d.primaryParams,
        bare p.name = bare q.name → p = q := fun p hp q hq => List.inj_on_of_nodup_map hdistinct hp hq
    refine List.Nodup.map_on ?_ ?_
    · intro p hp q hq heq
      refine hinj p ?_ q ?_ heq <;> simp only [List.mem_append, List.mem_filter] at hp hq <;> tauto
    · -- No parameter is captured and declares a property as well.
      have hparams : d.primaryParams.Nodup := hdistinct.of_map
      refine List.Nodup.append (hparams.filter _) (hparams.filter _) ?_
      intro p hcaptured hshorthand
      have hkept := ((isCaptured_iff hc).mp (List.mem_filter.mp hcaptured).2).1
      rw [(List.mem_filter.mp hshorthand).2] at hkept
      cases hkept

end Apart

section Members

variable {o : Options} {importsSystem : Bool} {d : Declaration} {c : Context}
  (hc : Context.of o importsSystem d = c)
include hc

omit hc in
theorem filterMap_member?_itemBecomes (items : List BodyItem) :
    (items.map c.itemBecomes).filterMap BodyItem.member? =
      (items.filterMap BodyItem.member?).map c.becomes := by
  rw [List.filterMap_map, List.map_filterMap]
  congr 1
  funext item
  cases item <;> rfl

/-- The items that go into the constructor are no members. -/
theorem filterMap_member?_drop :
    (d.body.drop c.recognition.initializerEnd).filterMap BodyItem.member? = d.members := by
  have hnone : (d.body.take c.recognition.initializerEnd).filterMap BodyItem.member? = [] := by
    rw [List.filterMap_eq_nil_iff]
    intro item hitem
    cases item with
    | member m =>
      obtain ⟨i, hi, hget⟩ := List.mem_take_iff_getElem.mp hitem
      have hle := initializerEnd_le_of_member hc (List.getElem?_eq_some_iff.mpr ⟨_, hget⟩)
      omega
    | statement _ | comment _ => rfl
  unfold Declaration.members
  nth_rewrite 2 [← List.take_append_drop c.recognition.initializerEnd d.body]
  rw [List.filterMap_append, hnone, List.nil_append]

/-- **The members of a lowered declaration**: those that are added, the constructor, and what is made
of the members of the source. -/
theorem members_lowered_perm :
    (d.lowered o importsSystem).members.Perm (c.newMembers ++
      (if d.getsConstructor o then [.constructor c.impliedConstructor] else []) ++
      d.members.map c.becomes) := by
  have hgets : (d.hasPrimaryConstructor || !(c.fullPlan.opening .constructor).isEmpty) =
      d.getsConstructor o := by
    rw [← addsConstructor_fullPlan hc, Plan.addsConstructor, primary_fullPlan hc]
    cases d.hasPrimaryConstructor <;> rfl
  have hif : ∀ (b : Bool) (m : Member),
      (if b then [BodyItem.member m] else []).filterMap BodyItem.member? = if b then [m] else [] := by
    intro b m
    cases b <;> rfl
  have hmap : ∀ (params : List Parameter) (f : Parameter → Member),
      (params.map fun p => BodyItem.member (f p)).filterMap BodyItem.member? = params.map f := by
    intro params f
    rw [List.filterMap_map]
    exact congrFun (List.filterMap_eq_map (f := f)) params
  have hdeclaration : c.declaration = d := hc ▸ rfl
  rw [Declaration.members, body_lowered_eq hc, added_fullPlan hc, hgets, newMembers, hdeclaration]
  simp only [List.filterMap_append, filterMap_member?_itemBecomes, filterMap_member?_drop hc, hif,
    hmap, List.append_assoc]
  -- Only the accessor stands elsewhere, at the end.
  refine .append_left _ (.append_left _ (.append_left _ ?_))
  rw [← List.append_assoc]
  exact List.perm_append_comm

end Members

end Context

/-! ### Two spellings -/

namespace Identifier

/-- The name is `b` with the mark in front of it, once or more. -/
def IsMarked (a b : String) : Prop :=
  ∃ n, a = String.ofList (List.replicate (n + 1) '@') ++ b

theorem toList_eq_replicate_append (name : String) :
    ∃ n, name.toList = List.replicate n '@' ++ bareChars name := by
  have hmarks : name.toList.takeWhile (· == '@') =
      List.replicate (name.toList.takeWhile (· == '@')).length '@' :=
    List.eq_replicate_of_mem fun x hx =>
      beq_iff_eq.mp (List.mem_takeWhile_imp (p := (· == '@')) hx)
  refine ⟨(name.toList.takeWhile (· == '@')).length, ?_⟩
  rw [← hmarks]
  exact List.takeWhile_append_dropWhile.symm

theorem IsMarked.same {a b : String} (h : IsMarked a b) : same a b = true := by
  obtain ⟨n, rfl⟩ := h
  unfold Identifier.same bare bareChars
  rw [String.toList_append, String.toList_ofList, List.dropWhile_append_of_pos]
  · exact beq_self_eq_true _
  · intro c hc
    exact beq_iff_eq.mpr (List.eq_of_mem_replicate hc)

/-- **Two spellings are the same name** if they are equal but for marks in front of one of them. -/
theorem same_iff_isMarked {a b : String} (hne : a ≠ b) :
    same a b = true ↔ IsMarked a b ∨ IsMarked b a := by
  constructor
  · intro h
    obtain ⟨n, ha⟩ := toList_eq_replicate_append a
    obtain ⟨k, hb⟩ := toList_eq_replicate_append b
    have hbare : bareChars a = bareChars b := String.ofList_injective (beq_iff_eq.mp h)
    rw [hbare] at ha
    -- The one with more marks is the other behind the difference.
    have hmarked : ∀ {x y : String} {i j : Nat} {rest : List Char},
        x.toList = List.replicate i '@' ++ rest → y.toList = List.replicate j '@' ++ rest →
        i < j → IsMarked y x := by
      intro x y i j rest hx hy hlt
      refine ⟨j - i - 1, String.toList_injective ?_⟩
      rw [String.toList_append, String.toList_ofList, hx, hy, ← List.append_assoc,
        List.replicate_append_replicate]
      congr 2
      omega
    rcases Nat.lt_trichotomy n k with hlt | rfl | hgt
    · exact .inr (hmarked ha hb hlt)
    · exact absurd (String.toList_injective (ha.trans hb.symm)) hne
    · exact .inl (hmarked hb ha hgt)
  · rintro (h | h)
    · exact h.same
    · have hsame := h.same
      unfold same at hsame ⊢
      rw [beq_iff_eq] at hsame ⊢
      exact hsame.symm

end Identifier

/-- **New names are apart but for marks.** Let a declaration whose primary parameters are different
names be desugared. Then its members are the new ones, possibly a constructor, and what is made of
the members that it had. The new members have different names. A new member has the name of a field,
property, method or type that was declared exactly if one of the two is spelled like the other with
the mark `@` in front; no two are spelled alike. -/
theorem new_names_apart_iff {o : Options} {importsSystem : Bool} {d d' : Declaration}
    (h : (d.desugarWith o importsSystem Feature.all).result = .baseline d')
    (hdistinct : (d.primaryParams.map fun p => bare p.name).Nodup) :
    ∃ c, Context.of o importsSystem d = c ∧
      d'.members.Perm (c.newMembers ++
        (if d.getsConstructor o then [.constructor c.impliedConstructor] else []) ++
        d.members.map c.becomes) ∧
      (c.newNames.map bare).Nodup ∧
      ∀ a ∈ c.newNames, ∀ b ∈ d.declaredNames,
        a ≠ b ∧ (same a b = true ↔ IsMarked a b ∨ IsMarked b a) := by
  obtain ⟨hfault, rfl, -⟩ := Declaration.baseline_inv h
  refine ⟨_, rfl, Context.members_lowered_perm rfl, Context.nodup_newNames rfl hfault hdistinct,
    fun a ha b hb => ?_⟩
  have hne : a ≠ b := by
    rintro rfl
    have hfree := Context.declaresMember_newName rfl hfault ha
    rw [Declaration.declaresMember_of_mem_declaredNames hb] at hfree
    cases hfree
  exact ⟨hne, same_iff_isMarked hne⟩

/-- `record class Person(string Name)` with a property that has the mark. -/
def markedPerson : Declaration where
  attributes := []
  modifiers := []
  kind := .record
  singleton := false
  name := "Person"
  typeParams := none
  params := some [⟨[], [], ⟨"string"⟩, "Name", none, none, .nowhere⟩]
  constructorAccess := none
  bases := []
  constraints := []
  source := .made ""
  span := .nowhere
  body := [
    .member (.property ⟨[], ["public"], ⟨"string"⟩, "@Name",
      .expression (.made "\"x\""), none, .nowhere⟩)]

theorem new_names_apart_iff_markedPerson :
    ∃ d', (markedPerson.desugarWith {} true Feature.all).result = .baseline d' ∧
      (markedPerson.primaryParams.map fun p => bare p.name).Nodup ∧
      d'.members.filterMap Member.ownName? = ["Name", "@Name"] ∧
      same "Name" "@Name" = true := by
  have h : (markedPerson.desugarWith {} true Feature.all).result =
      .baseline (markedPerson.lowered {} true) := rfl
  have hdistinct : (markedPerson.primaryParams.map fun p => bare p.name).Nodup := by decide
  obtain ⟨c, rfl, -, -, hapart⟩ := new_names_apart_iff h hdistinct
  have hnew : "Name" ∈ (Context.of {} true markedPerson).newNames := by decide +kernel
  have hold : "@Name" ∈ markedPerson.declaredNames := by decide +kernel
  exact ⟨_, h, hdistinct, by decide +kernel,
    (hapart _ hnew _ hold).2.mpr (.inr ⟨0, by decide⟩)⟩

end ClassSugar
