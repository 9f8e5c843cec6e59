/-
  SecurityRules.Collection.Guard
  ────────────────────────────────
  **GUARDS.**

  The predicate of an operation is resolved against the document that the
  operation concerns: the stored one for getting, listing and deleting, the
  incoming one for creating.  An update concerns both, unless the collection
  gave up to prevent lockouts.  What creating and updating leave behind also
  has to meet the schema, which is the function `isValidSchema` of the
  collection.  A collection-level predicate belongs to no field.
-/
import SecurityRules.Schema.Rules
import SecurityRules.Collection.Basic

namespace SecurityRules

/-- The document as it is stored. -/
def storedDocument : String := "resource.data"

/-- The document as it will be after the operation. -/
def incomingDocument : String := "request.resource.data"

/-- The parameter of the function that checks the schema. -/
def schemaParameter : String := "data"

/-- The expression that a document meets the schema. -/
def meetsSchema (document : String) : String :=
  "isValidSchema(" ++ document ++ ")"

namespace Collection

/-- What the schema demands of the parameter of its function. -/
def schemaRule (c : Collection) : Except Fault Rule :=
  c.schema.rule schemaParameter

/-- The predicate of an operation, resolved against a document. -/
def accessIn (c : Collection) (op : Operation) (document : String) : Except Fault Rule :=
  (c.access op).resolve ⟨document, none⟩

/-- The whole guard of an operation. -/
def guard (c : Collection) : Operation → Except Fault Rule
  | .create => do
      let own ← c.accessIn .create incomingDocument
      return ⟨.all, [own.toFormula, .text (meetsSchema incomingDocument)]⟩
  | .update => do
      let before ← c.accessIn .update storedDocument
      let rule : Rule := ⟨.all, [.text (meetsSchema incomingDocument), before.toFormula]⟩
      if c.preventsLockout then
        -- the document that the update leaves has to allow it as well
        let after ← c.accessIn .update incomingDocument
        return rule.push after.toFormula
      else
        return rule
  | op => c.accessIn op storedDocument

end Collection

end SecurityRules
