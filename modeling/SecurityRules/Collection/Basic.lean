/-
  SecurityRules.Collection.Basic
  ────────────────────────────────
  **COLLECTIONS OF DOCUMENTS.**

  A collection has a schema for its documents, a predicate for each operation,
  and child collections.  It starts without members or children and denies
  every operation; steps then change it one by one.  Granting a permission
  replaces the predicates of the operations that it covers, so of several
  grants for an operation the last one counts.

  An update is by default only allowed if it would still be allowed
  afterwards, so that nobody shuts himself out; `Collection.allowLockout`
  gives that up.
-/
import SecurityRules.Schema.Basic
import SecurityRules.Collection.Operation

namespace SecurityRules

/-- A collection of documents with the collections below it. -/
structure Collection where
  name : String
  /-- The variable that stands for the id of a document. -/
  documentId : String
  schema : Schema
  /-- Which predicate an operation has to meet. -/
  access : Operation → Predicate
  /-- Whether an update also has to be allowed by the document that it
  leaves. -/
  preventsLockout : Bool
  children : List Collection

namespace Collection

/-- A collection that declares nothing and denies everything. -/
def empty (name documentId : String) : Collection :=
  ⟨name, documentId, .empty, fun _ => .deny, true, []⟩

/-- The path of a document, from where the collection lies. -/
def relativePath (c : Collection) : String :=
  "/" ++ c.name ++ "/\x7b" ++ c.documentId ++ "\x7d"

/-! ## §1. Steps. -/

/-- The collection with a key of its documents declared. -/
def declare (c : Collection) (m : Member) : Collection :=
  { c with schema := c.schema.declare m }

/-- The collection with all keys of a schema declared. -/
def extend (c : Collection) (schema : Schema) : Collection :=
  { c with schema := c.schema.extend schema }

/-- The collection with a further child. -/
def addChild (c child : Collection) : Collection :=
  { c with children := c.children ++ [child] }

/-- The collection with the operations that a permission covers allowed where
the predicate holds. -/
def allow (c : Collection) (permission : Permission) (rule : Predicate) : Collection :=
  { c with access := fun op => if permission.covers op then rule else c.access op }

/-- The collection with updates allowed whatever document they leave. -/
def allowLockout (c : Collection) : Collection :=
  { c with preventsLockout := false }

/-- One step in building a collection. -/
inductive Step where
  | declare (member : Member)
  | extend (schema : Schema)
  | addChild (child : Collection)
  | allow (permission : Permission) (rule : Predicate)
  | allowLockout

/-- Takes one step. -/
def apply (c : Collection) : Step → Collection
  | .declare m => c.declare m
  | .extend schema => c.extend schema
  | .addChild child => c.addChild child
  | .allow permission rule => c.allow permission rule
  | .allowLockout => c.allowLockout

/-- Takes steps in order. -/
def run (c : Collection) (steps : List Step) : Collection :=
  steps.foldl apply c

/-! ## §2. Grants. -/

theorem access_allow (c : Collection) (permission : Permission) (rule : Predicate)
    (op : Operation) :
    (c.allow permission rule).access op
      = if permission.covers op then rule else c.access op := rfl

end Collection

end SecurityRules
