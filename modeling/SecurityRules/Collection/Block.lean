/-
  SecurityRules.Collection.Block
  ────────────────────────────────
  **THE BLOCK OF A COLLECTION.**

  A collection is written as a `match` block: the function that checks its
  schema, one `allow` line for each operation, and the blocks of its children
  among them.  A fault is wrapped in the path of every collection that it
  arose in.
-/
import SecurityRules.Text.Listing
import SecurityRules.Collection.Guard

namespace SecurityRules

/-- The line that opens the block for a path. -/
def matchLine (path : String) : String :=
  "match " ++ path ++ " \x7b"

/-- The line that closes a block. -/
def closingLine : String := "\x7d"

/-- The line of the function that checks the schema. -/
def schemaLine (check : String) : String :=
  "function isValidSchema(" ++ schemaParameter ++ ") \x7b return " ++ check ++ "; \x7d"

/-- The line that guards an operation. -/
def allowLine (op : Operation) (guard : String) : String :=
  "allow " ++ op.name ++ ": if " ++ guard ++ ";"

namespace Collection

/-- The text of what the schema demands. -/
def schemaText (c : Collection) : Except Fault String := do
  let rule ← c.schemaRule
  rule.render

/-- The text of a guard. -/
def guardText (c : Collection) (op : Operation) : Except Fault String := do
  let rule ← c.guard op
  rule.render

/-- The lines for some operations, in order. -/
def allowLines (c : Collection) : List Operation → Except Fault (List Line)
  | [] => .ok []
  | op :: ops => do
      let guard ← c.guardText op
      let rest ← c.allowLines ops
      return .text (allowLine op guard) :: rest

/-- The lines of a collection that do not come from its children. -/
def ownLines (c : Collection) : Except Fault (List Line) := do
  let check ← c.schemaText
  let rest ← c.allowLines Operation.every
  return .text (schemaLine check) :: rest

mutual

/-- The block of a collection. -/
def block : Collection → Except Fault (List Line)
  | ⟨name, documentId, schema, access, preventsLockout, children⟩ =>
      let c : Collection := ⟨name, documentId, schema, access, preventsLockout, children⟩
      let lines : Except Fault (List Line) := do
        let own ← c.ownLines
        let nested ← blocks children
        return [.text (matchLine c.relativePath), .block (own ++ nested), .text closingLine]
      lines.mapError (Fault.inCollection c.relativePath)

/-- The blocks of some collections, one behind the other. -/
def blocks : List Collection → Except Fault (List Line)
  | [] => .ok []
  | c :: collections => do
      let first ← block c
      let rest ← blocks collections
      return first ++ rest

end

end Collection

end SecurityRules
