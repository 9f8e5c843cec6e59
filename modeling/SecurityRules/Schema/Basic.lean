/-
  SecurityRules.Schema.Basic
  ────────────────────────────────
  **SCHEMAS.**

  A schema declares the keys of a document or of a map inside it.  A key is
  declared as a field, which lists the kinds of value it may hold, or with a
  validator; either may be optional.  An assertion is one accepted kind
  together with what that kind needs — the values of an enumeration, the
  assertions about the elements of a list, the schema of a map — and with a
  predicate that the value has to meet besides.

  Schemas and fields are built up by steps:

    * `Field.Step` accepts a kind, restricts one, or makes the field optional;
    * `Schema.Step` declares a member or takes over those of another schema.

  In both, what is declared again replaces the earlier declaration in place.
-/
import SecurityRules.Keyed
import SecurityRules.Predicate.Basic
import SecurityRules.Schema.Kind

namespace SecurityRules

/-! ## §1. What schemas are made of. -/

mutual

/-- A kind of value with what belongs to it. -/
inductive Shape where
  /-- A kind alone. -/
  | plain (kind : Kind)
  /-- One of `values`. -/
  | oneOf (values : List Value)
  /-- A list; every element has to meet one of the assertions, if there are
  any. -/
  | listOf (element : List Assertion)
  /-- A map with the keys that the schema declares. -/
  | mapOf (schema : Schema)

/-- An accepted shape, and a predicate that has to hold besides. -/
structure Assertion where
  shape : Shape
  rule : Option Predicate

/-- A declared key that may hold what any of its assertions accepts. -/
structure Field where
  name : String
  optional : Bool
  assertions : List Assertion

/-- A check of a value on its own, independent of the key it is declared
for. -/
inductive Validator where
  /-- A condition, and a predicate that has to hold besides. -/
  | check (condition : Condition) (rule : Option Predicate)
  /-- One of `values`, and a predicate that has to hold besides. -/
  | oneOf (values : List Value) (rule : Option Predicate)
  /-- A map with the keys that the schema declares, and a predicate that has
  to hold besides. -/
  | map (rule : Option Predicate) (schema : Schema)
  /-- What any of the validators accepts. -/
  | anyOf (validators : List Validator)

/-- A declared key. -/
inductive Member where
  | field (field : Field)
  | checked (name : String) (optional : Bool) (validator : Validator)

/-- The declared keys of a document or of a map, in order. -/
structure Schema where
  members : List Member

end

/-! ## §2. Fields. -/

/-- The kind that a shape belongs to. -/
def Shape.kind : Shape → Kind
  | .plain kind => kind
  | .oneOf _ => .oneOf
  | .listOf _ => .list
  | .mapOf _ => .map

/-- The kind that an assertion accepts. -/
def Assertion.kind (a : Assertion) : Kind :=
  a.shape.kind

namespace Field

/-- A field that accepts nothing yet. -/
def empty (name : String) : Field :=
  ⟨name, false, []⟩

/-- The accepted kinds, in the order in which they were first accepted. -/
def kinds (f : Field) : List Kind :=
  f.assertions.map Assertion.kind

/-- The field, with leave to be absent. -/
def allowAbsent (f : Field) : Field :=
  { f with optional := true }

/-- The field with a further shape accepted. An earlier shape of the same kind
is given up together with its predicate. -/
def accept (f : Field) (shape : Shape) : Field :=
  { f with assertions := Keyed.insert Assertion.kind ⟨shape, none⟩ f.assertions }

/-- An assertion about a kind with a predicate put to it: the shape stays, and
is the kind alone where there was no assertion. -/
def restricted (kind : Kind) (rule : Predicate) (old : Option Assertion) : Assertion :=
  ⟨(old.map Assertion.shape).getD (.plain kind), some rule⟩

/-- The field with a predicate for one kind, which is accepted if it was not
yet. -/
def restrict (f : Field) (kind : Kind) (rule : Predicate) : Field :=
  { f with assertions := Keyed.upsert Assertion.kind kind (restricted kind rule) f.assertions }

/-- One step in building a field. -/
inductive Step where
  | allowAbsent
  | accept (shape : Shape)
  | restrict (kind : Kind) (rule : Predicate)

/-- Takes one step. -/
def apply (f : Field) : Step → Field
  | .allowAbsent => f.allowAbsent
  | .accept shape => f.accept shape
  | .restrict kind rule => f.restrict kind rule

/-- Takes steps in order. -/
def run (f : Field) (steps : List Step) : Field :=
  steps.foldl apply f

end Field

/-! ## §3. Schemas. -/

namespace Member

/-- The declared key. -/
def name : Member → String
  | .field f => f.name
  | .checked name _ _ => name

/-- Whether the key may be absent. -/
def isOptional : Member → Bool
  | .field f => f.optional
  | .checked _ optional _ => optional

end Member

namespace Schema

/-- The schema without members. -/
def empty : Schema := ⟨[]⟩

/-- The schema with a member declared. -/
def declare (s : Schema) (m : Member) : Schema :=
  ⟨Keyed.insert Member.name m s.members⟩

/-- The schema with all members of another one declared, in their order. -/
def extend (s other : Schema) : Schema :=
  other.members.foldl declare s

/-- The declared keys, in order. -/
def keys (s : Schema) : List String :=
  s.members.map Member.name

/-- The keys that may not be absent, in order. -/
def requiredKeys (s : Schema) : List String :=
  (s.members.filter fun m => !m.isOptional).map Member.name

/-- One step in building a schema. -/
inductive Step where
  | declare (member : Member)
  | extend (other : Schema)

/-- Takes one step. -/
def apply (s : Schema) : Step → Schema
  | .declare m => s.declare m
  | .extend other => s.extend other

/-- Takes steps in order. -/
def run (s : Schema) (steps : List Step) : Schema :=
  steps.foldl apply s

end Schema

end SecurityRules
