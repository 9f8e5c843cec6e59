/-
  SecurityRules.Predicate.Basic
  ────────────────────────────────
  **PREDICATES OVER DOCUMENT FIELDS.**

  A predicate is an and/or tree whose leaves are clauses: a literal expression
  taken as it stands, or a condition that compares two operands.  An operand
  may refer to a field of the document by name, to the field that the
  predicate belongs to (`this`), or to something inside another document which
  such a field points at.  What these references stand for is decided later,
  by the scope in which the predicate is resolved.
-/
import SecurityRules.Formula.Basic

namespace SecurityRules

/-! ## §1. References and operands. -/

/-- A field that a predicate speaks of. -/
inductive Reference where
  /-- The field that the predicate belongs to. -/
  | this
  /-- The field with this name in the same document. -/
  | named (name : String)
  deriving DecidableEq, Repr

namespace Reference

/-- The spelling that stands for the owning field in names. -/
def thisName : String := "this"

/-- The reference that a name spells: `this` is the owning field. -/
def ofName (name : String) : Reference :=
  if name = thisName then .this else .named name

/-- The name that spells a reference. A field that is itself called `this`
shares its spelling with the owning field. -/
def name : Reference → String
  | .this => thisName
  | .named name => name

@[simp] theorem name_ofName (name : String) : (ofName name).name = name := by
  unfold ofName
  split
  · next h => exact h.symm
  · rfl

theorem ofName_name {r : Reference} (h : r ≠ .named thisName) : ofName r.name = r := by
  cases r with
  | this => rfl
  | named n =>
      have hn : n ≠ thisName := fun e => h (by rw [e])
      simp [ofName, name, hn]

end Reference

/-- One side of a condition. -/
inductive Operand where
  /-- An expression taken as it stands. -/
  | literal (text : String)
  /-- The value of a field. -/
  | field (reference : Reference)
  /-- What lies at a dotted path in the document that the field `via` points
  at. -/
  | lookup (via : Reference) (path : String)
  deriving DecidableEq, Repr

/-! ## §2. Conditions. -/

/-- How a condition compares its sides. -/
inductive Operator where
  | equal
  | notEqual
  | less
  | lessOrEqual
  | greater
  | greaterOrEqual
  /-- The left side is a member of the right. -/
  | memberOf
  /-- The left side is no member of the right. -/
  | notMemberOf
  /-- The left side has the type on the right. -/
  | ofType
  /-- The right side is a member of the left. -/
  | contains
  /-- Some member of the right side is a member of the left. -/
  | containsAny
  deriving DecidableEq, Repr

namespace Operator

/-- All operators. -/
def every : List Operator :=
  [.equal, .notEqual, .less, .lessOrEqual, .greater, .greaterOrEqual,
    .memberOf, .notMemberOf, .ofType, .contains, .containsAny]

/-- How an operator is spelled in the shorthand. -/
def spelling : Operator → String
  | .equal => "=="
  | .notEqual => "!="
  | .less => "<"
  | .lessOrEqual => "<="
  | .greater => ">"
  | .greaterOrEqual => ">="
  | .memberOf => "in"
  | .notMemberOf => "not-in"
  | .ofType => "is"
  | .contains => "array-contains"
  | .containsAny => "array-contains-any"

/-- Whether an operator is spelled in letters. -/
def isWord : Operator → Bool
  | .memberOf | .notMemberOf | .ofType | .contains | .containsAny => true
  | _ => false

/-- The expression that applies an operator to two expressions. The rules
language has no word for exclusion and for the two kinds of containment, which
are put in terms of membership and of a method of lists. -/
def apply (op : Operator) (left right : String) : String :=
  match op with
  | .notMemberOf => "!(" ++ left ++ " in " ++ right ++ ")"
  | .contains => right ++ " in " ++ left
  | .containsAny => left ++ ".hasAny(" ++ right ++ ")"
  | _ => left ++ " " ++ op.spelling ++ " " ++ right

end Operator

/-- A comparison of two operands. -/
structure Condition where
  left : Operand
  operator : Operator
  right : Operand
  deriving DecidableEq, Repr

/-! ## §3. Predicates. -/

/-- A leaf of a predicate. -/
inductive Clause where
  /-- An expression taken as it stands. -/
  | literal (text : String)
  | condition (condition : Condition)
  deriving DecidableEq, Repr

/-- An and/or tree of clauses. -/
abbrev Predicate := Junction Clause

/-- A part of a predicate. -/
abbrev Term := Formula Clause

namespace Predicate

/-- The predicate without terms. -/
def empty (c : Connective) : Predicate := ⟨c, []⟩

/-- The predicate that is one literal. -/
def ofLiteral (text : String) : Predicate := ⟨.all, [.leaf (.literal text)]⟩

/-- The predicate that is one condition. -/
def ofCondition (condition : Condition) : Predicate :=
  ⟨.all, [.leaf (.condition condition)]⟩

/-- Holds always. -/
def allow : Predicate := ofLiteral "true"

/-- Holds never. -/
def deny : Predicate := ofLiteral "false"

/-- The predicate with one more term where there is one to add. -/
def pushIf (p : Predicate) : Option Term → Predicate
  | some term => p.push term
  | none => p

end Predicate

end SecurityRules
