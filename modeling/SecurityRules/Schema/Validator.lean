/-
  SecurityRules.Schema.Validator
  ────────────────────────────────
  **READY-MADE VALIDATORS.**

  Each takes a predicate that has to hold besides, or none.  The checks speak
  of the value as `this`, so a validator can be declared for any key.
-/
import SecurityRules.Schema.Basic

namespace SecurityRules.Validator

/-- The value has the type with this name. -/
def ofType (typeName : String) (rule : Option Predicate) : Validator :=
  .check ⟨.field .this, .ofType, .literal typeName⟩ rule

def string : Option Predicate → Validator := ofType "string"

def number : Option Predicate → Validator := ofType "number"

def boolean : Option Predicate → Validator := ofType "bool"

def timestamp : Option Predicate → Validator := ofType "timestamp"

/-- A reference to another document. -/
def path : Option Predicate → Validator := ofType "path"

/-- A list whose elements are not looked at. -/
def uncheckedList : Option Predicate → Validator := ofType "list"

/-- The value is null. -/
def nullable (rule : Option Predicate) : Validator :=
  .check ⟨.field .this, .equal, .literal "null"⟩ rule

end SecurityRules.Validator
