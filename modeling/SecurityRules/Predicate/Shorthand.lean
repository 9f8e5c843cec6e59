/-
  SecurityRules.Predicate.Shorthand
  ────────────────────────────────
  **WRITING PREDICATES DOWN.**

  The shorthand is the text form of predicates.  `$name` is a field,
  `@name.path` a path into the document that a field points at, and a literal
  stands as it is.  Every junction has its own parentheses, with its terms
  joined by `AND` or `OR`.  Reading the shorthand back is the business of the
  modules under `SecurityRules.Shorthand`.
-/
import SecurityRules.Predicate.Basic

namespace SecurityRules

/-- An operand in the shorthand. -/
def Operand.shorthand : Operand → String
  | .literal text => text
  | .field reference => "$" ++ reference.name
  | .lookup via path => "@" ++ via.name ++ "." ++ path

/-- A condition in the shorthand: its three parts with a space between. -/
def Condition.shorthand (c : Condition) : String :=
  c.left.shorthand ++ " " ++ c.operator.spelling ++ " " ++ c.right.shorthand

/-- A clause in the shorthand. -/
def Clause.shorthand : Clause → String
  | .literal text => text
  | .condition c => c.shorthand

/-- Texts joined by a connective, in parentheses. -/
def Connective.group (c : Connective) (texts : List String) : String :=
  "(" ++ (" " ++ c.keyword ++ " ").intercalate texts ++ ")"

mutual

/-- A term in the shorthand. -/
def Term.shorthand : Term → String
  | .leaf clause => clause.shorthand
  | .node c terms => c.group (Term.shorthandAll terms)

/-- The terms of a junction in the shorthand, in order. -/
def Term.shorthandAll : List Term → List String
  | [] => []
  | term :: terms => Term.shorthand term :: Term.shorthandAll terms

end

/-- A predicate in the shorthand, always in parentheses. -/
def Predicate.shorthand (p : Predicate) : String :=
  p.connective.group (Term.shorthandAll p.parts)

theorem Term.shorthandAll_eq_map (terms : List Term) :
    Term.shorthandAll terms = terms.map Term.shorthand := by
  induction terms with
  | nil => rfl
  | cons term terms ih => simp [Term.shorthandAll, ih]

/-- A nested predicate is written as it is on its own. -/
theorem Predicate.shorthand_toFormula (p : Predicate) :
    Term.shorthand p.toFormula = p.shorthand := rfl

end SecurityRules
