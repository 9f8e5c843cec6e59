/-
  SecurityRules.Schema.Kind
  ────────────────────────────────
  **KINDS OF VALUES.**

  A field declares the kinds of value that it may hold.  Most kinds have a
  name in the rules language, which a type test uses; `null`, an enumeration
  and `any` have none and are tested, if at all, in other ways.
-/
import SecurityRules.Text.JsonText

namespace SecurityRules

/-- A kind of value. -/
inductive Kind where
  | null
  | string
  | int
  | float
  | number
  | bool
  | timestamp
  | duration
  | latlng
  /-- A reference to another document. -/
  | path
  | list
  | map
  /-- One of a fixed set of values. -/
  | oneOf
  | any
  deriving DecidableEq, Repr

/-- The name of a kind in a type test. -/
def Kind.typeName? : Kind → Option String
  | .null => none
  | .string => some "string"
  | .int => some "int"
  | .float => some "float"
  | .number => some "number"
  | .bool => some "bool"
  | .timestamp => some "timestamp"
  | .duration => some "duration"
  | .latlng => some "latlng"
  | .path => some "path"
  | .list => some "list"
  | .map => some "map"
  | .oneOf => none
  | .any => none

/-- A value that a field may be restricted to. -/
inductive Value where
  | integer (n : Int)
  | text (s : String)
  deriving DecidableEq, Repr

/-- A value in JSON. -/
def Value.json : Value → String
  | .integer n => toString n
  | .text s => Text.jsonString s

/-- A list of values in JSON. -/
def Value.jsonList (values : List Value) : String :=
  Text.jsonArray (values.map Value.json)

end SecurityRules
