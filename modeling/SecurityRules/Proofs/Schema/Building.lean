/-
  SecurityRules.Proofs.Schema.Building
  ────────────────────────────────
  **WHAT A BUILT RULE IS MADE OF.**

  A rule is built from the rules of the pieces of a schema, and it is there only
  if all of them are.  One lemma for each way of putting rules together says
  which rules these are and what is made of them, so that no other proof has to
  open the functions that build them.

    * `extraParts_…`, `elementParts_…`, `checkRule_…` — the parts that do not
      nest, and `isBlank_…` — the expressions among them are not blank;
    * `Shape.parts_…`, `Assertion.…`, `Field.…`, `Validator.…`, `Member.…` and
      `Schema.rule_eq_ok` — one for each piece of a schema.
-/
import SecurityRules.Schema.Rules
import SecurityRules.Proofs.Formula.Collapse

namespace SecurityRules

/-! ## §1. Parts that do not nest. -/

theorem extraParts_none_eq_ok {scope : Scope} {parts : List (Formula String)} :
    extraParts scope none = .ok parts ↔ parts = [] := by
  rw [extraParts, Except.ok.injEq, eq_comm]

/-- The predicate that has to hold besides is one part. -/
theorem extraParts_some_eq_ok {scope : Scope} {p : Predicate} {parts : List (Formula String)} :
    extraParts scope (some p) = .ok parts ↔
      ∃ rule, p.resolve scope = .ok rule ∧ [rule.toFormula] = parts := by
  rw [extraParts, Except.map_eq_ok]

theorem elementParts_nil {list : String} : elementParts list [] = .ok [] := rfl

/-- The check of the elements is one expression around the text of the choice.
-/
theorem elementParts_eq_ok {list : String} {alternatives parts : List (Formula String)}
    (hne : alternatives ≠ []) :
    elementParts list alternatives = .ok parts ↔
      ∃ check, Rule.render ⟨.any, alternatives⟩ = .ok check
        ∧ [.text (forEachElement list (elementName list) check)] = parts := by
  rw [elementParts, if_neg (by simpa using hne), Except.map_eq_ok]

/-- The predicate besides is a term behind the condition. -/
theorem extraParts_eq_traverseAll (scope : Scope) (rule : Option Predicate) :
    extraParts scope rule
      = Formula.traverseAll (Clause.resolve scope) (rule.map Junction.toFormula).toList := by
  cases rule with
  | none => rfl
  | some p =>
      show (Junction.traverse (Clause.resolve scope) p).map _ = _
      show _ = Formula.traverseAll _ [.node p.connective p.parts]
      rw [Junction.traverse, Formula.traverseAll_cons, Formula.traverse]
      cases Formula.traverseAll (Clause.resolve scope) p.parts <;> rfl

/-- A condition becomes its expression, and what the predicate besides becomes
stands behind it. -/
theorem checkRule_eq (scope : Scope) (condition : Condition) (rule : Option Predicate) :
    checkRule scope condition rule = (do
      let text ← condition.resolve scope
      let extra ← extraParts scope rule
      return ⟨.all, .text text :: extra⟩) := by
  have hterms : (Predicate.ofCondition condition).pushIf (rule.map Junction.toFormula)
      = ⟨.all, .leaf (.condition condition) :: (rule.map Junction.toFormula).toList⟩ := by
    cases rule <;> rfl
  rw [checkRule, hterms, Predicate.resolve, Junction.traverse, Formula.traverseAll_cons,
    Formula.traverse, Clause.resolve, ← extraParts_eq_traverseAll]
  cases condition.resolve scope with
  | error fault => rfl
  | ok text => cases extraParts scope rule <;> rfl

/-- A check is made of the expression for its condition and what has to hold
besides. -/
theorem checkRule_eq_ok {scope : Scope} {condition : Condition} {rule : Option Predicate}
    {own : Rule} :
    checkRule scope condition rule = .ok own ↔
      ∃ text extra, condition.resolve scope = .ok text ∧ extraParts scope rule = .ok extra
        ∧ ⟨.all, .text text :: extra⟩ = own := by
  rw [checkRule_eq, Except.bind_bind_eq_ok]

/-- A condition on `this` compares the expression for the value. -/
theorem Condition.resolve_this {document target : String} (op : Operator) {text : String}
    (h : Text.isBlank text = false) :
    Condition.resolve ⟨document, some target⟩ ⟨.field .this, op, .literal text⟩
      = .ok (op.apply target text) := by
  refine Condition.resolve_eq_ok.2 ⟨target, text, rfl, ?_, rfl⟩
  rw [Operand.resolve, h]
  rfl

/-- A call on the keys is no blank, whatever the path is. -/
theorem isBlank_keysCall {document call arguments : String} (h : Text.isBlank call = false) :
    Text.isBlank (keysOf document ++ call ++ arguments ++ ")") = false := by
  simp only [Text.isBlank_append, h, Bool.and_false, Bool.false_and]

theorem isBlank_absent (document name : String) : Text.isBlank (absent document name) = false := by
  have hany : Text.isBlank ".hasAny(" = false := by decide +kernel
  unfold absent
  simp only [Text.isBlank_append, hany, Bool.and_false, Bool.false_and]

/-- Nor is a quantifier. -/
theorem isBlank_forEachElement (list binding check : String) :
    Text.isBlank (forEachElement list binding check) = false := by
  have hall : Text.isBlank ".all(" = false := by decide +kernel
  unfold forEachElement
  simp only [Text.isBlank_append, hall, Bool.and_false, Bool.false_and]

theorem isBlank_jsonList (values : List Value) : Text.isBlank (Value.jsonList values) = false := by
  have hopen : Text.isBlank "[" = false := by decide +kernel
  unfold Value.jsonList Text.jsonArray
  simp only [Text.isBlank_append, hopen, Bool.false_and]

/-! ## §2. The pieces of a schema. -/

variable {document target : String} {scope : Scope}

/-- The assertions about the elements of a list are made at the name of the
element. -/
theorem Shape.parts_listOf_eq_ok {element : List Assertion} {parts : List (Formula String)} :
    Shape.parts document target (.listOf element) = .ok parts ↔
      ∃ alternatives, Assertion.alternatives document (elementName target) element
          = .ok alternatives
        ∧ elementParts target alternatives = .ok parts := by
  rw [Shape.parts, Except.bind_eq_ok]

/-- The schema of a map is mounted at the place of the value. -/
theorem Shape.parts_mapOf_eq_ok {schema : Schema} {parts : List (Formula String)} :
    Shape.parts document target (.mapOf schema) = .ok parts ↔
      ∃ rule, Schema.rule target schema = .ok rule ∧ [rule.toFormula] = parts := by
  simp only [Shape.parts, Except.bind_eq_ok, Except.pure_eq_ok]

/-- A branch is the test, what the shape demands besides, and the predicate. -/
theorem Assertion.branch_eq_ok {shape : Shape} {rule : Option Predicate} {branch : Rule} :
    Assertion.branch document target ⟨shape, rule⟩ = .ok branch ↔
      ∃ further extra, Shape.parts document target shape = .ok further
        ∧ extraParts ⟨document, some target⟩ rule = .ok extra
        ∧ ⟨.all, Shape.test target rule.isSome shape ++ further ++ extra⟩ = branch := by
  rw [Assertion.branch, Except.bind_bind_eq_ok]
  rfl

/-- An assertion comes before those behind it, unless its branch is empty. -/
theorem Assertion.alternatives_cons_eq_ok {a : Assertion} {assertions : List Assertion}
    {parts : List (Formula String)} :
    Assertion.alternatives document target (a :: assertions) = .ok parts ↔
      ∃ branch rest, Assertion.branch document target a = .ok branch
        ∧ Assertion.alternatives document target assertions = .ok rest
        ∧ alternative branch ++ rest = parts := by
  rw [Assertion.alternatives, Except.bind_bind_eq_ok]

/-- The rule of a field is a choice between its alternatives. -/
theorem Field.rule_eq_ok {name : String} {optional : Bool} {assertions : List Assertion}
    {own : Rule} :
    Field.rule document ⟨name, optional, assertions⟩ = .ok own ↔
      ∃ parts, Assertion.alternatives document (Text.joinPath document name) assertions
          = .ok parts
        ∧ ⟨.any, parts⟩ = own := by
  simp only [Field.rule, Except.bind_eq_ok, Except.pure_eq_ok]

/-- The rule of a map is a check of the type with the rule of its schema behind
it, at the owner of the scope. -/
theorem Validator.rule_map_eq_ok {rule : Option Predicate} {schema : Schema} {own : Rule} :
    Validator.rule scope (.map rule schema) = .ok own ↔
      ∃ target base inner, scope.owner = some target
        ∧ checkRule scope ⟨.field .this, .ofType, .literal "map"⟩ rule = .ok base
        ∧ Schema.rule target schema = .ok inner ∧ base.push inner.toFormula = own := by
  rw [Validator.rule, Except.bind_eq_ok]
  simp only [Except.bind_eq_ok, Except.pure_eq_ok]
  have howner : ∀ target, Reference.resolve scope .this = .ok target
      ↔ scope.owner = some target := by
    intro target
    rw [Reference.resolve]
    cases scope.owner <;> simp
  simp only [howner]
  constructor
  · rintro ⟨target, htarget, base, hbase, inner, hinner, heq⟩
    exact ⟨target, base, inner, htarget, hbase, hinner, heq⟩
  · rintro ⟨target, base, inner, htarget, hbase, hinner, heq⟩
    exact ⟨target, htarget, base, hbase, inner, hinner, heq⟩

/-- The rule of a choice joins the rules of its validators. -/
theorem Validator.rule_anyOf_eq_ok {validators : List Validator} {own : Rule} :
    Validator.rule scope (.anyOf validators) = .ok own ↔
      ∃ parts, Validator.parts scope validators = .ok parts ∧ ⟨.any, parts⟩ = own := by
  simp only [Validator.rule, Except.bind_eq_ok, Except.pure_eq_ok]

theorem Validator.parts_cons_eq_ok {v : Validator} {validators : List Validator}
    {parts : List (Formula String)} :
    Validator.parts scope (v :: validators) = .ok parts ↔
      ∃ rule rest, Validator.rule scope v = .ok rule ∧ Validator.parts scope validators = .ok rest
        ∧ rule.toFormula :: rest = parts := by
  rw [Validator.parts, Except.bind_bind_eq_ok]

/-- What a member demands comes before what those behind it demand. -/
theorem Member.demands_cons_eq_ok {m : Member} {members : List Member}
    {parts : List (Formula String)} :
    Member.demands document (m :: members) = .ok parts ↔
      ∃ own rest, Member.rule document m = .ok own ∧ Member.demands document members = .ok rest
        ∧ m.demand document own ++ rest = parts := by
  rw [Member.demands, Except.bind_bind_eq_ok]

/-- The rule of a schema is the guards of its keys with the demands of its
members behind them. -/
theorem Schema.rule_eq_ok {members : List Member} {rule : Rule} :
    Schema.rule document ⟨members⟩ = .ok rule ↔
      ∃ demands, Member.demands document members = .ok demands
        ∧ ⟨.all, (Schema.keyGuards ⟨members⟩ document).toFormula :: demands⟩ = rule := by
  simp only [Schema.rule, Except.bind_eq_ok, Except.pure_eq_ok]

end SecurityRules
