/-
  SecurityRules.Fault
  ────────────────────────────────
  **WHY A RULE CANNOT BE BUILT.**

  A fault names a cause.  A fault that arises while a collection is built is
  wrapped in that collection's path, once for each collection around it;
  `Fault.cause` looks through the wrappers and `Fault.message` is the wording.
-/

namespace SecurityRules

/-- The causes for which a rule cannot be built. -/
inductive Fault where
  /-- A rule without any condition was to be rendered. -/
  | emptyRule
  /-- One side of a condition is a blank text. -/
  | blankOperand
  /-- The predicate speaks of the field it belongs to, and belongs to none. -/
  | unboundThis
  /-- A field or an attribute is referred to by the empty name. -/
  | blankReference
  /-- The fault arose inside the collection at `path`. -/
  | inCollection (path : String) (fault : Fault)
  deriving DecidableEq

namespace Fault

/-- The fault itself, without the collections around it. -/
def cause : Fault → Fault
  | .inCollection _ fault => fault.cause
  | fault => fault

/-- The wording of a fault. -/
def message : Fault → String
  | .emptyRule => "attempted to render a rule that has no conditions"
  | .blankOperand => "condition has a blank operand"
  | .unboundThis => "'this' referenced outside of a field rule"
  | .blankReference => "field reference has a blank name"
  | .inCollection path fault => "in collection '" ++ path ++ "': " ++ fault.message

end Fault

end SecurityRules
