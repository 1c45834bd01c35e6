import ClassSugar.Desugar.Recognition

/-!
# Plans

Desugaring a declaration is planned before it is carried out. A plan has slots, and each slot
belongs to one feature: the rule for a feature fills its own slots and sees no others. So the order
in which rules run does not matter; where their results go is decided once, when the plan is
assembled.

Statements that enter the body of a constructor or method are listed by target.
-/

namespace ClassSugar

/-- Values by target, at most one for each. -/
abbrev ByTarget (α : Type) :=
  List (Target × α)

/-- What takes the place of a header that implies a constructor. -/
structure PrimaryPlan where
  /-- The accessibility of the constructor. -/
  access : String
  /-- `base(...)`, if the header gives arguments to a base class. -/
  baseCall : Option String
  /-- The base list without arguments. -/
  bases : List BaseEntry
  /-- The fields that keep parameters for other members to read. -/
  captures : List Field
  captureAssignments : List Statement
  /-- The positions of the members whose initializers move into the constructor, increasing. -/
  moved : List Nat
  movedAssignments : List Statement
  deriving DecidableEq, Inhabited

/-- What is to be done with a declaration. -/
structure Plan where
  /-- The field that holds the instance of a singleton. -/
  holder : Option Field := none
  /-- The property through which the instance of a singleton is reached. -/
  accessor : Option Property := none
  /-- The checks that a singleton is constructed once. -/
  singletonGuards : ByTarget Statement := []
  /-- The checks that arguments are not null. -/
  nullGuards : ByTarget (List Statement) := []
  /-- Parameters lose their null assertions. -/
  stripNullMarkers : Bool := false
  /-- The statements of the unnamed initializer. -/
  initializer : ByTarget (List Statement) := []
  /-- The number of leading body items that move out of the body. -/
  consumed : Nat := 0
  /-- The properties that parameters declare. -/
  properties : List Property := []
  propertyAssignments : List Statement := []
  /-- The constructor that the header implies. -/
  primary : Option PrimaryPlan := none
  deriving DecidableEq, Inhabited

namespace Plan

/-- The statements that open the body of a target: the check of a singleton, the checks of
arguments, the unnamed initializer. -/
def opening (p : Plan) (t : Target) : List Statement :=
  (p.singletonGuards.lookup t).toList ++ (p.nullGuards.lookup t).getD [] ++
    (p.initializer.lookup t).getD []

/-- Whether the initializer of the member at a position moves into the constructor. -/
def isMoved (p : Plan) (position : Nat) : Bool :=
  p.primary.any fun primary => primary.moved.contains position

end Plan

end ClassSugar
