/-
  SecurityRules.Predicate.Resolution
  ────────────────────────────────
  **PREDICATES IN A SCOPE.**

  A scope says which document the named fields of a predicate lie in, and
  which expression its owning field stands for, if it has one.  Resolving a
  predicate in a scope replaces every clause by an expression text and keeps
  the tree:

    * a blank literal is dropped;
    * operands are judged from left to right, and the first fault wins;
    * the connectives and the nesting stay.
-/
import SecurityRules.Text.Path
import SecurityRules.Formula.Rendering
import SecurityRules.Predicate.Basic

namespace SecurityRules

/-! ## §1. Scopes. -/

/-- Where the references of a predicate point to. -/
structure Scope where
  /-- The path of the document that named fields lie in. -/
  document : String
  /-- The expression that the owning field stands for. -/
  owner : Option String := none
  deriving DecidableEq, Repr

namespace Scope

/-- The scope with the field `name` of its own document as the owner. -/
def ownedBy (scope : Scope) (name : String) : Scope :=
  { scope with owner := some (Text.joinPath scope.document name) }

/-- The scope with a given expression as the owner. -/
def ownedByExpression (scope : Scope) (expression : String) : Scope :=
  { scope with owner := some expression }

end Scope

/-! ## §2. Resolution. -/

/-- The expression for a field. -/
def Reference.resolve (scope : Scope) : Reference → Except Fault String
  | .this =>
      match scope.owner with
      | some expression => .ok expression
      | none => .error .unboundThis
  | .named name =>
      if name = "" then .error .blankReference
      else .ok (Text.joinPath scope.document name)

/-- The expression for an operand. An empty path is a fault even before the
field in front of it is looked at. -/
def Operand.resolve (scope : Scope) : Operand → Except Fault String
  | .literal text => if Text.isBlank text then .error .blankOperand else .ok text
  | .field reference => reference.resolve scope
  | .lookup via path =>
      if path = "" then .error .blankReference
      else (via.resolve scope).map fun place => "get(" ++ place ++ ").data." ++ path

/-- The expression for a condition. -/
def Condition.resolve (scope : Scope) (c : Condition) : Except Fault String := do
  let left ← c.left.resolve scope
  let right ← c.right.resolve scope
  return c.operator.apply left right

/-- The expression for a clause; `none` for a blank literal. -/
def Clause.resolve (scope : Scope) : Clause → Except Fault (Option String)
  | .literal text => .ok (if Text.isBlank text then none else some text)
  | .condition c => (c.resolve scope).map some

/-- The rule that a predicate stands for in a scope. -/
def Predicate.resolve (scope : Scope) (p : Predicate) : Except Fault Rule :=
  p.traverse (Clause.resolve scope)

/-- The text of a predicate in a scope. -/
def Predicate.renderIn (scope : Scope) (p : Predicate) : Except Fault String := do
  let rule ← p.resolve scope
  rule.render

end SecurityRules
