/-!
# The extensions of the language

Five constructs extend the class declarations of C#. Their order here is the canonical one: features
are listed in it, and statements enter a constructor in it. Four of them can be switched off; a
parameter list on a declaration is always understood.
-/

namespace ClassSugar

/-- A construct that a declaration may use. -/
inductive Feature where
  /-- A class marked `singleton`. -/
  | singletonMarker
  /-- A parameter asserted not to be null. -/
  | nullAssertion
  /-- Statements in a class body, before every member. -/
  | unnamedInitializer
  /-- A primary parameter that declares a property. -/
  | propertyShorthand
  /-- A header that implies a constructor. -/
  | primaryConstructor
  deriving DecidableEq, Repr, Inhabited

namespace Feature

/-- The features in canonical order. -/
def all : List Feature :=
  [.singletonMarker, .nullAssertion, .unnamedInitializer, .propertyShorthand, .primaryConstructor]

/-- The name of a feature. -/
def name : Feature → String
  | .singletonMarker => "SingletonMarker"
  | .nullAssertion => "NullAssertion"
  | .unnamedInitializer => "UnnamedInitializer"
  | .propertyShorthand => "PropertyShorthand"
  | .primaryConstructor => "PrimaryConstructor"

/-- The feature with a name. -/
def ofName? (s : String) : Option Feature :=
  all.find? fun f => f.name == s

theorem mem_all (f : Feature) : f ∈ all := by
  cases f <;> decide

end Feature

/-- A set of features. -/
structure FeatureSet where
  singletonMarker : Bool
  nullAssertion : Bool
  unnamedInitializer : Bool
  propertyShorthand : Bool
  primaryConstructor : Bool
  deriving DecidableEq, Repr, Inhabited

namespace FeatureSet

/-- No feature. -/
def empty : FeatureSet :=
  ⟨false, false, false, false, false⟩

/-- Whether a feature is in the set. -/
def contains (s : FeatureSet) : Feature → Bool
  | .singletonMarker => s.singletonMarker
  | .nullAssertion => s.nullAssertion
  | .unnamedInitializer => s.unnamedInitializer
  | .propertyShorthand => s.propertyShorthand
  | .primaryConstructor => s.primaryConstructor

/-- The set with a feature. -/
def insert (s : FeatureSet) : Feature → FeatureSet
  | .singletonMarker => { s with singletonMarker := true }
  | .nullAssertion => { s with nullAssertion := true }
  | .unnamedInitializer => { s with unnamedInitializer := true }
  | .propertyShorthand => { s with propertyShorthand := true }
  | .primaryConstructor => { s with primaryConstructor := true }

/-- The set of the features in a list. -/
def ofList (fs : List Feature) : FeatureSet :=
  fs.foldl insert empty

/-- The features of the set, in canonical order. -/
def toList (s : FeatureSet) : List Feature :=
  Feature.all.filter s.contains

/-- Whether the set has no feature. -/
def isEmpty (s : FeatureSet) : Bool :=
  s.toList.isEmpty

/-- The features of the set in words. -/
def describe (s : FeatureSet) : String :=
  if s.isEmpty then "(none)" else String.intercalate ", " (s.toList.map Feature.name)

theorem contains_insert (s : FeatureSet) (f g : Feature) :
    (s.insert f).contains g = (decide (f = g) || s.contains g) := by
  cases f <;> cases g <;> simp [insert, contains]

@[simp] theorem contains_empty (f : Feature) : empty.contains f = false := by
  cases f <;> rfl

@[simp] theorem mem_toList (s : FeatureSet) (f : Feature) :
    f ∈ s.toList ↔ s.contains f = true := by
  simp [toList, Feature.mem_all]

/-- Two sets with the same features are equal. -/
theorem ext_contains {s t : FeatureSet} (h : ∀ f, s.contains f = t.contains f) : s = t := by
  have h₁ := h .singletonMarker
  have h₂ := h .nullAssertion
  have h₃ := h .unnamedInitializer
  have h₄ := h .propertyShorthand
  have h₅ := h .primaryConstructor
  cases s
  cases t
  simp_all [contains]

end FeatureSet

/-- Which extensions are switched on. -/
structure Extensions where
  propertyShorthand : Bool := true
  unnamedInitializer : Bool := true
  singleton : Bool := true
  nullAssertion : Bool := true
  deriving DecidableEq, Repr, Inhabited

namespace Extensions

/-- Whether a feature is understood. -/
def allows (e : Extensions) : Feature → Bool
  | .singletonMarker => e.singleton
  | .nullAssertion => e.nullAssertion
  | .unnamedInitializer => e.unnamedInitializer
  | .propertyShorthand => e.propertyShorthand
  | .primaryConstructor => true

/-- Whether every extension is switched off. -/
def isBaseline (e : Extensions) : Bool :=
  !e.propertyShorthand && !e.unnamedInitializer && !e.singleton && !e.nullAssertion

end Extensions

end ClassSugar
