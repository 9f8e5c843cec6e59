/-
  SecurityRules.Schema.Rules
  ────────────────────────────────
  **WHAT A SCHEMA DEMANDS OF A DOCUMENT.**

  A schema becomes a rule about the document at a path: its required keys are
  there, no key is there that it does not declare, and each member's own rule
  holds.

    * A field's rule is a choice between its assertions.  Each of them is the
      test of its kind, what the shape says further, and the extra predicate.
    * The elements of a list are checked by a quantifier, which needs a name
      for the element; `elementName` derives one from the path of the list.
    * The rule of an optional member only has to hold where its key is there.
    * A member that demands nothing is left out.

  Rules are built from left to right, and the first fault wins.
-/
import SecurityRules.Predicate.Resolution
import SecurityRules.Schema.Basic

namespace SecurityRules

/-! ## §1. Quantifiers over lists. -/

/-- The name for the element of the list at a path: the last segment of the
path, as far as it can be part of an identifier, with `_item` behind it. An
identifier cannot start with a digit, and something has to name the element
where nothing of the segment is left. -/
def elementName (list : String) : String :=
  let ident := (Text.lastSegment list.toList).filter Text.isNameChar
  match ident with
  | [] => "item"
  | c :: _ =>
      if c.isDigit then "f" ++ String.ofList ident ++ "_item"
      else String.ofList ident ++ "_item"

/-- The expression that `check` holds for every element of the list, where the
check calls the element `binding`. -/
def forEachElement (list binding check : String) : String :=
  list ++ ".all(" ++ binding ++ ", " ++ check ++ ")"

/-! ## §2. Parts that do not nest. -/

/-- The test of a shape's own kind. Where anything goes there is nothing to
test, which is put as `true` unless a predicate is there to take its place. -/
def Shape.test (target : String) (restricted : Bool) : Shape → List (Formula String)
  | .plain .null => [.text (Operator.equal.apply target "null")]
  | .plain .any => if restricted then [] else [.text "true"]
  -- membership implies the type
  | .oneOf values => [.text (Operator.memberOf.apply target (Value.jsonList values))]
  | shape =>
      (shape.kind.typeName?.map fun typeName =>
        Formula.text (Operator.ofType.apply target typeName)).toList

/-- The predicate that has to hold besides, as a part of a rule. -/
def extraParts (scope : Scope) : Option Predicate → Except Fault (List (Formula String))
  | none => .ok []
  | some p => (p.resolve scope).map fun rule => [rule.toFormula]

/-- A condition and the predicate that has to hold besides. -/
def checkRule (scope : Scope) (condition : Condition) (rule : Option Predicate) :
    Except Fault Rule :=
  ((Predicate.ofCondition condition).pushIf (rule.map Junction.toFormula)).resolve scope

/-- The expression for the keys of the document at a path. -/
def keysOf (document : String) : String :=
  Text.joinPath document "keys()"

namespace Schema

/-- Every required key is there, and only declared keys are. -/
def keyGuards (s : Schema) (document : String) : Rule :=
  ⟨.all,
    [.text (keysOf document ++ ".hasAll(" ++ Text.jsonStrings s.requiredKeys ++ ")"),
      .text (keysOf document ++ ".hasOnly(" ++ Text.jsonStrings s.keys ++ ")")]⟩

end Schema

/-- The expression that the key `name` is absent. -/
def absent (document name : String) : String :=
  "!" ++ keysOf document ++ ".hasAny(" ++ Text.jsonStrings [name] ++ ")"

/-- What a member's own rule adds to the rule of the schema. -/
def Member.demand (m : Member) (document : String) (own : Rule) : List (Formula String) :=
  if own.isEmpty then []
  else if m.isOptional then [.node .any [.text (absent document m.name), own.toFormula]]
  else [own.toFormula]

/-- What an assertion adds to the choice that its field leaves. -/
def alternative (branch : Rule) : List (Formula String) :=
  if branch.isEmpty then [] else [branch.toFormula]

/-- The check of every element of a list, whose elements have to meet one of
`alternatives`; nothing if there are none. -/
def elementParts (list : String) (alternatives : List (Formula String)) :
    Except Fault (List (Formula String)) :=
  if alternatives.isEmpty then .ok []
  else (Rule.render ⟨.any, alternatives⟩).map fun check =>
    [.text (forEachElement list (elementName list) check)]

/-! ## §3. Rules. -/

mutual

/-- What a shape demands besides the test of its kind. -/
def Shape.parts (document target : String) : Shape → Except Fault (List (Formula String))
  | .plain _ => .ok []
  | .oneOf _ => .ok []
  | .listOf element => do
      let alternatives ← Assertion.alternatives document (elementName target) element
      elementParts target alternatives
  | .mapOf schema => do
      let rule ← Schema.rule target schema
      return [rule.toFormula]

/-- What an assertion demands of the value `target`, which belongs to the
document at `document`. -/
def Assertion.branch (document target : String) : Assertion → Except Fault Rule
  | ⟨shape, rule⟩ => do
      let further ← Shape.parts document target shape
      let extra ← extraParts (.ownedByExpression ⟨document, none⟩ target) rule
      return ⟨.all, Shape.test target rule.isSome shape ++ further ++ extra⟩

/-- The choice between assertions, without those that demand nothing. -/
def Assertion.alternatives (document target : String) :
    List Assertion → Except Fault (List (Formula String))
  | [] => .ok []
  | a :: assertions => do
      let branch ← Assertion.branch document target a
      let rest ← Assertion.alternatives document target assertions
      return alternative branch ++ rest

/-- What a field demands of the document. -/
def Field.rule (document : String) : Field → Except Fault Rule
  | ⟨name, _, assertions⟩ => do
      let parts ← Assertion.alternatives document (Text.joinPath document name) assertions
      return ⟨.any, parts⟩

/-- What a validator demands of the field that owns the scope. -/
def Validator.rule (scope : Scope) : Validator → Except Fault Rule
  | .check condition rule => checkRule scope condition rule
  | .oneOf values rule =>
      checkRule scope ⟨.field .this, .memberOf, .literal (Value.jsonList values)⟩ rule
  | .map rule schema => do
      let target ← Reference.resolve scope .this
      let own ← checkRule scope ⟨.field .this, .ofType, .literal "map"⟩ rule
      let inner ← Schema.rule target schema
      return own.push inner.toFormula
  | .anyOf validators => do
      let parts ← Validator.parts scope validators
      return ⟨.any, parts⟩

/-- What each of some validators demands, in order. -/
def Validator.parts (scope : Scope) : List Validator → Except Fault (List (Formula String))
  | [] => .ok []
  | v :: validators => do
      let rule ← Validator.rule scope v
      let rest ← Validator.parts scope validators
      return rule.toFormula :: rest

/-- What a member demands by itself, whether or not its key may be absent. -/
def Member.rule (document : String) : Member → Except Fault Rule
  | .field f => Field.rule document f
  | .checked name _ validator => Validator.rule (.ownedBy ⟨document, none⟩ name) validator

/-- What some members add to the rule of their schema, in order. -/
def Member.demands (document : String) : List Member → Except Fault (List (Formula String))
  | [] => .ok []
  | m :: members => do
      let own ← Member.rule document m
      let rest ← Member.demands document members
      return m.demand document own ++ rest

/-- What a schema demands of the document at a path. -/
def Schema.rule (document : String) : Schema → Except Fault Rule
  | ⟨members⟩ => do
      let demands ← Member.demands document members
      return ⟨.all, (Schema.keyGuards ⟨members⟩ document).toFormula :: demands⟩

end

end SecurityRules
