/-
  SecurityRules.Collection.Operation
  ────────────────────────────────
  **WHAT CAN BE DONE TO A DOCUMENT.**

  The rules guard five operations.  A permission is granted for one of them or
  for a group: reading is getting and listing, writing is creating, updating
  and deleting, and full access is both.
-/

namespace SecurityRules

/-- A guarded operation. -/
inductive Operation where
  | get
  | create
  | update
  | list
  | delete
  deriving DecidableEq, Repr

namespace Operation

/-- All operations, in the order in which rules are written. -/
def every : List Operation :=
  [.get, .create, .update, .list, .delete]

theorem mem_every (op : Operation) : op ∈ every := by
  cases op <;> decide

/-- The name of an operation in the rules language. -/
def name : Operation → String
  | .get => "get"
  | .create => "create"
  | .update => "update"
  | .list => "list"
  | .delete => "delete"

end Operation

/-- What a permission is granted for. -/
inductive Permission where
  | only (operation : Operation)
  | read
  | write
  | full
  deriving DecidableEq, Repr

namespace Permission

/-- Whether a permission is for an operation, alone or among others. -/
def covers : Permission → Operation → Bool
  | .only operation, op => operation == op
  | .read, .get | .read, .list => true
  | .read, _ => false
  | .write, .create | .write, .update | .write, .delete => true
  | .write, _ => false
  | .full, _ => true

end Permission

end SecurityRules
