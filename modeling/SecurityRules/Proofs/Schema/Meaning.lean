/-
  SecurityRules.Proofs.Schema.Meaning
  ────────────────────────────────
  **WHAT A SCHEMA MEANS.**

  What a schema demands of a document can be said along the schema itself, with
  no mention of rules: its keys are guarded, and every member that demands
  something holds or may be absent and is.  A field holds when the value meets
  one of its assertions, an assertion when its own test, what its shape says
  further and its predicate hold.  Which expressions are true is given by `v`;
  the check of the elements of a list is one expression.

  Building a rule skips pieces that demand nothing and turns the ways in which
  parts are joined around several times.  The rule says what the schema means
  all the same.

    * `Schema.Holds` and its kin — the meaning;
    * `Assertion.holds_iff_of_branch` and its kin — each piece of a rule says
      what its piece of the schema means.

  Main statement: `Schema.holds_rule_iff`.
-/
import SecurityRules.Proofs.Formula.Truth
import SecurityRules.Proofs.Schema.Building
import SecurityRules.Proofs.Schema.Requirement

namespace SecurityRules

/-! ## §1. The meaning of a schema. -/

section Meaning

variable (v : String → Bool)

/-- The test of a shape's own kind: a comparison with null, a membership, or a
type test. A kind without a name is not tested. -/
def Shape.TestHolds (target : String) : Shape → Prop
  | .plain .null => v (Operator.equal.apply target "null") = true
  | .oneOf values => v (Operator.memberOf.apply target (Value.jsonList values)) = true
  | shape => ∀ typeName ∈ shape.kind.typeName?, v (Operator.ofType.apply target typeName) = true

/-- The check of the elements of a list, where assertions are made about
them. -/
def ElementsHold (document list : String) (element : List Assertion) : Prop :=
  element ≠ [] → ∃ alternatives check,
    Assertion.alternatives document (elementName list) element = .ok alternatives
      ∧ Rule.render ⟨.any, alternatives⟩ = .ok check
      ∧ v (forEachElement list (elementName list) check) = true

/-- The predicate that has to hold besides, if there is one. -/
def ExtraHolds (scope : Scope) (rule : Option Predicate) : Prop :=
  ∀ p ∈ rule, Predicate.holdsIn v scope p = true

/-- The expression for a condition is true. -/
def ConditionHolds (scope : Scope) (condition : Condition) : Prop :=
  ∃ expression, condition.resolve scope = .ok expression ∧ v expression = true

/-- Every required key is there, and only declared keys are. -/
def KeysHold (document : String) (s : Schema) : Prop :=
  v (keysOf document ++ ".hasAll(" ++ Text.jsonStrings s.requiredKeys ++ ")") = true
    ∧ v (keysOf document ++ ".hasOnly(" ++ Text.jsonStrings s.keys ++ ")") = true

/-- Whether a member demands something of its value: a field without assertions
and a choice between no validators do not. -/
def Member.Demands : Member → Prop
  | .field f => f.assertions ≠ []
  | .checked _ _ validator => validator ≠ .anyOf []

mutual

/-- What a shape says of the value besides the test of its kind. -/
def Shape.Holds (document target : String) : Shape → Prop
  | .plain _ => True
  | .oneOf _ => True
  | .listOf element => ElementsHold v document target element
  | .mapOf schema => Schema.Holds target schema

/-- The value meets an assertion. -/
def Assertion.Holds (document target : String) : Assertion → Prop
  | ⟨shape, rule⟩ =>
      Shape.TestHolds v target shape ∧ Shape.Holds document target shape
        ∧ ExtraHolds v ⟨document, some target⟩ rule

/-- The value meets one of some assertions. -/
def Assertion.SomeHolds (document target : String) : List Assertion → Prop
  | [] => False
  | a :: assertions =>
      Assertion.Holds document target a ∨ Assertion.SomeHolds document target assertions

/-- The value of a field meets one of its assertions. -/
def Field.Holds (document : String) : Field → Prop
  | ⟨name, _, assertions⟩ => Assertion.SomeHolds document (Text.joinPath document name) assertions

/-- A validator accepts the value at `target`. -/
def Validator.Holds (document target : String) : Validator → Prop
  | .check condition rule =>
      ConditionHolds v ⟨document, some target⟩ condition
        ∧ ExtraHolds v ⟨document, some target⟩ rule
  | .oneOf values rule =>
      v (Operator.memberOf.apply target (Value.jsonList values)) = true
        ∧ ExtraHolds v ⟨document, some target⟩ rule
  | .map rule schema =>
      v (Operator.ofType.apply target "map") = true
        ∧ ExtraHolds v ⟨document, some target⟩ rule ∧ Schema.Holds target schema
  | .anyOf validators => Validator.SomeHolds document target validators

/-- One of some validators accepts the value at `target`. -/
def Validator.SomeHolds (document target : String) : List Validator → Prop
  | [] => False
  | w :: validators =>
      Validator.Holds document target w ∨ Validator.SomeHolds document target validators

/-- The value under the key of a member is accepted. -/
def Member.Holds (document : String) : Member → Prop
  | .field f => Field.Holds document f
  | .checked name _ validator => Validator.Holds document (Text.joinPath document name) validator

/-- Each of some members that demands something is absent and may be, or its
value is accepted. -/
def Member.AllHold (document : String) : List Member → Prop
  | [] => True
  | m :: members =>
      (m.Demands → (m.isOptional = true ∧ v (absent document m.name) = true)
          ∨ Member.Holds document m)
        ∧ Member.AllHold document members

/-- A document at a path is as the schema declares. -/
def Schema.Holds (document : String) : Schema → Prop
  | ⟨members⟩ => KeysHold v document ⟨members⟩ ∧ Member.AllHold document members

end

end Meaning

variable {v : String → Bool}

theorem Assertion.someHolds_iff {document target : String} {assertions : List Assertion} :
    Assertion.SomeHolds v document target assertions
      ↔ ∃ a ∈ assertions, a.Holds v document target := by
  induction assertions with
  | nil => simp [Assertion.SomeHolds]
  | cons a assertions ih => simp [Assertion.SomeHolds, ih]

theorem Member.allHold_iff {document : String} {members : List Member} :
    Member.AllHold v document members
      ↔ ∀ m ∈ members, m.Demands → (m.isOptional = true ∧ v (absent document m.name) = true)
          ∨ m.Holds v document := by
  induction members with
  | nil => simp [Member.AllHold]
  | cons m members ih => rw [Member.AllHold, List.forall_mem_cons, ih]

/-- A field holds when its value meets one of its assertions. -/
theorem Field.holds_iff {document : String} {f : Field} :
    f.Holds v document
      ↔ ∃ a ∈ f.assertions, a.Holds v document (Text.joinPath document f.name) := by
  obtain ⟨name, optional, assertions⟩ := f
  rw [Field.Holds]
  exact Assertion.someHolds_iff

/-- A schema holds when its keys are as declared and every member that demands
something holds, or may be absent and is. -/
theorem Schema.holds_iff {document : String} {s : Schema} :
    s.Holds v document
      ↔ KeysHold v document s ∧ ∀ m ∈ s.members, m.Demands →
          (m.isOptional = true ∧ v (absent document m.name) = true) ∨ m.Holds v document := by
  obtain ⟨members⟩ := s
  rw [Schema.Holds]
  exact and_congr Iff.rfl Member.allHold_iff

/-! ## §2. Parts that do not nest. -/

variable {document target : String} {scope : Scope}

/-- A text that is no blank counts as one condition: it is not false where it is
true. -/
theorem noneFalse_text {expression : String} (h : Text.isBlank expression = false) :
    NoneFalse (readText v) [.text expression] ↔ v expression = true :=
  noneFalse_leaf (readText_of_not_blank h)

/-- A type test is there for a kind that has a name. -/
theorem noneFalse_typeTest (target : String) (typeName? : Option String) :
    NoneFalse (readText v) (typeName?.map fun typeName =>
        Formula.text (Operator.ofType.apply target typeName)).toList
      ↔ ∀ typeName ∈ typeName?, v (Operator.ofType.apply target typeName) = true := by
  cases typeName? with
  | none => simp [NoneFalse]
  | some typeName =>
      show NoneFalse (readText v) [.text _] ↔ _
      rw [noneFalse_text (Operator.isBlank_apply _ _ _)]
      simp

/-- The test of a shape says what the shape's own test means. Where anything
goes it is `true`, or left out. -/
theorem Shape.noneFalse_test (hv : v "true" = true) (target : String) (restricted : Bool)
    (shape : Shape) :
    NoneFalse (readText v) (Shape.test target restricted shape) ↔ shape.TestHolds v target := by
  cases shape with
  | oneOf values => exact noneFalse_text (Operator.isBlank_apply _ _ _)
  | listOf element => exact noneFalse_typeTest target (some "list")
  | mapOf schema => exact noneFalse_typeTest target (some "map")
  | plain kind =>
      cases kind with
      | null => exact noneFalse_text (Operator.isBlank_apply _ _ _)
      | any =>
          -- a test that is left out demands as little as `true`
          have hmeaning : (Shape.plain .any).TestHolds v target :=
            fun typeName hname => nomatch hname
          refine iff_of_true ?_ hmeaning
          show NoneFalse (readText v) (if restricted then [] else [.text "true"])
          cases restricted with
          | true => exact noneFalse_nil
          | false => exact (noneFalse_text (by decide +kernel)).2 hv
      | oneOf => exact noneFalse_typeTest target none
      | string => exact noneFalse_typeTest target (some "string")
      | int => exact noneFalse_typeTest target (some "int")
      | float => exact noneFalse_typeTest target (some "float")
      | number => exact noneFalse_typeTest target (some "number")
      | bool => exact noneFalse_typeTest target (some "bool")
      | timestamp => exact noneFalse_typeTest target (some "timestamp")
      | duration => exact noneFalse_typeTest target (some "duration")
      | latlng => exact noneFalse_typeTest target (some "latlng")
      | path => exact noneFalse_typeTest target (some "path")
      | list => exact noneFalse_typeTest target (some "list")
      | map => exact noneFalse_typeTest target (some "map")

/-- Only an enumeration without values goes untested where no predicate takes
the place of the test. -/
theorem Shape.test_ne_nil {shape : Shape} (h : shape ≠ .plain .oneOf) (target : String) :
    Shape.test target false shape ≠ [] := by
  cases shape with
  | plain kind =>
      cases kind with
      | oneOf => exact absurd rfl h
      | _ => exact List.cons_ne_nil _ _
  | _ => exact List.cons_ne_nil _ _

/-- The parts of a predicate besides say what the predicate says, and nothing
where there is none. -/
theorem noneFalse_extraParts {rule : Option Predicate} {parts : List (Formula String)}
    (h : extraParts scope rule = .ok parts) :
    NoneFalse (readText v) parts ↔ ExtraHolds v scope rule := by
  cases rule with
  | none =>
      obtain rfl := extraParts_none_eq_ok.1 h
      exact iff_of_true noneFalse_nil fun p hp => nomatch hp
  | some p =>
      obtain ⟨own, hown, rfl⟩ := extraParts_some_eq_ok.1 h
      rw [noneFalse_toFormula, ← Rule.holds, Predicate.holds_resolve hown]
      simp [ExtraHolds]

/-- A check says that its condition holds and the predicate besides. -/
theorem holds_iff_of_checkRule {condition : Condition} {rule : Option Predicate} {own : Rule}
    (h : checkRule scope condition rule = .ok own) :
    own.holds v = true ↔ ConditionHolds v scope condition ∧ ExtraHolds v scope rule := by
  obtain ⟨expression, extra, hexpr, hextra, rfl⟩ := checkRule_eq_ok.1 h
  have hblank : Text.isBlank expression = false :=
    Clause.isBlank_of_resolve (Clause.resolve_eq_ok_some.2 (.inr ⟨condition, rfl, hexpr⟩))
  have hcondition : ConditionHolds v scope condition ↔ v expression = true := by
    unfold ConditionHolds
    simp [hexpr]
  rw [Rule.holds, Junction.holds_all_iff, noneFalse_cons, noneFalse_text hblank,
    noneFalse_extraParts hextra, hcondition]

/-- A condition between the value and a literal is tested by its expression. -/
theorem conditionHolds_this {op : Operator} {text : String} (h : Text.isBlank text = false) :
    ConditionHolds v ⟨document, some target⟩ ⟨.field .this, op, .literal text⟩
      ↔ v (op.apply target text) = true := by
  unfold ConditionHolds
  simp [Condition.resolve_this op h]

/-- The check of the elements of a list is there where there are assertions
about them. -/
theorem noneFalse_elementParts {element : List Assertion}
    {alternatives parts : List (Formula String)}
    (halt : Assertion.alternatives document (elementName target) element = .ok alternatives)
    (hnil : alternatives = [] ↔ element = [])
    (h : elementParts target alternatives = .ok parts) :
    NoneFalse (readText v) parts ↔ ElementsHold v document target element := by
  by_cases hempty : element = []
  · rw [hnil.2 hempty, elementParts_nil] at h
    cases h
    exact iff_of_true noneFalse_nil fun hne => absurd hempty hne
  · obtain ⟨check, hcheck, rfl⟩ := (elementParts_eq_ok fun hn => hempty (hnil.1 hn)).1 h
    rw [noneFalse_text (isBlank_forEachElement _ _ _)]
    constructor
    · exact fun hholds _ => ⟨alternatives, check, halt, hcheck, hholds⟩
    · intro hmeaning
      obtain ⟨alternatives', check', halt', hcheck', hholds⟩ := hmeaning hempty
      -- there is only one check
      obtain rfl := Except.ok.inj (halt.symm.trans halt')
      obtain rfl := Except.ok.inj (hcheck.symm.trans hcheck')
      exact hholds

/-- The two guards of the keys say what is meant by them. -/
theorem Schema.holds_keyGuards (s : Schema) :
    (s.keyGuards document).holds v = true ↔ KeysHold v document s := by
  have hall : Text.isBlank ".hasAll(" = false := by decide +kernel
  have honly : Text.isBlank ".hasOnly(" = false := by decide +kernel
  unfold KeysHold Schema.keyGuards
  rw [Rule.holds, Junction.holds_all_iff, noneFalse_cons, noneFalse_text (isBlank_keysCall hall),
    noneFalse_text (isBlank_keysCall honly)]

/-- What a member adds says that the member may be absent and is, or that its
own rule holds. -/
theorem Member.noneFalse_demand {m : Member} {own : Rule} (hown : own.isEmpty = true ↔ ¬m.Demands) :
    NoneFalse (readText v) (m.demand document own)
      ↔ (m.Demands → (m.isOptional = true ∧ v (absent document m.name) = true)
          ∨ own.holds v = true) := by
  unfold Member.demand
  by_cases hempty : own.isEmpty = true
  · rw [if_pos hempty]
    exact iff_of_true noneFalse_nil fun hdemands => absurd hdemands (hown.1 hempty)
  have hdemands : m.Demands := Classical.byContradiction fun hno => hempty (hown.2 hno)
  rw [if_neg hempty]
  by_cases hoptional : m.isOptional = true
  · rw [if_pos hoptional]
    have hchoice := @noneFalse_toFormula String (readText v)
      ⟨.any, [.text (absent document m.name), own.toFormula]⟩
    refine hchoice.trans ?_
    rw [Junction.holds_any_iff, someTrue_cons, someTrue_toFormula,
      someTrue_leaf (readText_of_not_blank (isBlank_absent _ _)), Rule.holds]
    simp [hdemands, hoptional]
  · rw [if_neg hoptional, noneFalse_toFormula, Rule.holds]
    simp [hdemands, hoptional]

/-! ## §3. Pieces that demand nothing. -/

/-- An enumeration has its values, unless a predicate takes their place. -/
def Requirement.valued : Requirement where
  assertion a := a.shape = .plain .oneOf → a.rule ≠ none

/-- Every step in building a field leaves it so: a kind is accepted as a whole,
and an enumeration without values is only ever made by restricting it. -/
theorem Field.Step.keeps_valued {step : Field.Step}
    (h : ∀ shape, step = .accept shape → shape ≠ .plain .oneOf ∧ shape.Meets .valued) :
    step.Keeps .valued := by
  cases step with
  | allowAbsent => trivial
  | accept shape =>
      obtain ⟨hshape, hmeets⟩ := h shape rfl
      exact ⟨fun heq => absurd heq hshape, hmeets⟩
  | restrict kind rule =>
      exact ⟨fun _ => Option.some_ne_none rule, fun _ _ _ => Option.some_ne_none rule⟩

/-- Every assertion leaves something to check: a test, or a predicate that takes
its place. -/
theorem Assertion.isEmpty_of_branch {a : Assertion} (ha : Requirement.valued.assertion a)
    {branch : Rule} (h : Assertion.branch document target a = .ok branch) :
    branch.isEmpty = false := by
  obtain ⟨shape, rule⟩ := a
  obtain ⟨further, extra, -, hextra, rfl⟩ := Assertion.branch_eq_ok.1 h
  refine List.isEmpty_eq_false_iff.2 ?_
  cases rule with
  | none =>
      -- without a predicate the shape is no bare enumeration, so it has a test
      have hshape : shape ≠ .plain .oneOf := fun heq => ha heq rfl
      have htest := Shape.test_ne_nil hshape target
      simp [htest]
  | some p =>
      obtain ⟨own, -, rfl⟩ := extraParts_some_eq_ok.1 hextra
      simp

theorem alternative_of_not_isEmpty {branch : Rule} (h : branch.isEmpty = false) :
    alternative branch = [branch.toFormula] := by
  rw [alternative, h]
  rfl

/-- So no assertion is lost among the alternatives, and there are none only
where nothing is asserted. -/
theorem Assertion.alternatives_eq_nil_iff {assertions : List Assertion}
    (ha : Assertion.AllMeet .valued assertions) {parts : List (Formula String)}
    (h : Assertion.alternatives document target assertions = .ok parts) :
    parts = [] ↔ assertions = [] := by
  cases assertions with
  | nil =>
      cases h
      exact iff_of_true rfl rfl
  | cons a assertions =>
      obtain ⟨branch, rest, hbranch, -, rfl⟩ := Assertion.alternatives_cons_eq_ok.1 h
      have hown := (Assertion.meets_iff.1 ha.1).1
      rw [alternative_of_not_isEmpty (Assertion.isEmpty_of_branch hown hbranch)]
      simp

/-- Only a choice between no validators leaves nothing to check. -/
theorem Validator.isEmpty_iff {w : Validator} {own : Rule} (h : Validator.rule scope w = .ok own) :
    own.isEmpty = true ↔ w = .anyOf [] := by
  have hcheck : ∀ {condition : Condition} {rule : Option Predicate} {own : Rule},
      checkRule scope condition rule = .ok own → ¬own.isEmpty = true := by
    intro condition rule own hrule
    obtain ⟨expression, extra, -, -, rfl⟩ := checkRule_eq_ok.1 hrule
    exact Bool.false_ne_true
  -- a check has an expression, a map its type test, and a choice has what its parts leave
  cases w with
  | check condition rule => exact iff_of_false (hcheck h) (by simp)
  | oneOf values rule => exact iff_of_false (hcheck h) (by simp)
  | map rule schema =>
      obtain ⟨place, base, inner, -, -, -, rfl⟩ := Validator.rule_map_eq_ok.1 h
      exact iff_of_false (by simp [Junction.isEmpty]) (by simp)
  | anyOf validators =>
      obtain ⟨parts, hparts, rfl⟩ := Validator.rule_anyOf_eq_ok.1 h
      cases validators with
      | nil =>
          cases hparts
          exact iff_of_true rfl rfl
      | cons w validators =>
          obtain ⟨first, rest, -, -, rfl⟩ := Validator.parts_cons_eq_ok.1 hparts
          exact iff_of_false Bool.false_ne_true (by simp)

/-- The rule of a member is empty exactly where the member demands nothing, so
leaving out empty rules leaves out nothing else. -/
theorem Member.isEmpty_iff {m : Member} (hm : m.Meets .valued) {own : Rule}
    (h : Member.rule document m = .ok own) : own.isEmpty = true ↔ ¬m.Demands := by
  cases m with
  | field f =>
      obtain ⟨name, optional, assertions⟩ := f
      have hrule : Field.rule document ⟨name, optional, assertions⟩ = .ok own := h
      obtain ⟨parts, hparts, rfl⟩ := Field.rule_eq_ok.1 hrule
      have hnil := Assertion.alternatives_eq_nil_iff hm.2 hparts
      show parts.isEmpty = true ↔ ¬assertions ≠ []
      rw [List.isEmpty_iff, hnil, Classical.not_not]
  | checked name optional validator =>
      rw [Validator.isEmpty_iff h]
      exact Classical.not_not.symm

/-! ## §4. Rules say what schemas mean. -/

mutual

/-- What a shape demands besides its test is what it says besides its test. The
elements of a list are one expression, so the induction only goes into the
schema of a map. -/
theorem Shape.noneFalse_iff_of_parts {v : String → Bool} (hv : v "true" = true)
    {document target : String} (shape : Shape) (hs : shape.Meets .valued)
    {parts : List (Formula String)} (h : Shape.parts document target shape = .ok parts) :
    NoneFalse (readText v) parts ↔ shape.Holds v document target := by
  match shape with
  | .plain kind =>
      cases h
      exact iff_of_true noneFalse_nil trivial
  | .oneOf values =>
      cases h
      exact iff_of_true noneFalse_nil trivial
  | .listOf element =>
      -- one expression, whatever the assertions about the elements mean
      obtain ⟨alternatives, halt, hparts⟩ := Shape.parts_listOf_eq_ok.1 h
      exact noneFalse_elementParts halt (Assertion.alternatives_eq_nil_iff hs halt) hparts
  | .mapOf schema =>
      obtain ⟨rule, hrule, rfl⟩ := Shape.parts_mapOf_eq_ok.1 h
      rw [noneFalse_toFormula]
      exact Schema.holds_iff_of_rule hv schema hs hrule

/-- **The branch of an assertion says what the assertion means**: it joins the
test, the demands of the shape and the predicate with `all`, one after the
other. -/
theorem Assertion.holds_iff_of_branch {v : String → Bool} (hv : v "true" = true)
    {document target : String} (a : Assertion) (ha : a.Meets .valued) {branch : Rule}
    (h : Assertion.branch document target a = .ok branch) :
    branch.holds v = true ↔ a.Holds v document target := by
  match a with
  | ⟨shape, rule⟩ =>
      obtain ⟨further, extra, hfurther, hextra, rfl⟩ := Assertion.branch_eq_ok.1 h
      have htest := Shape.noneFalse_test hv target rule.isSome shape
      have hshape := Shape.noneFalse_iff_of_parts hv shape ha.2 hfurther
      rw [Rule.holds, Junction.holds_all_iff, noneFalse_append, noneFalse_append, htest, hshape,
        noneFalse_extraParts hextra, and_assoc]
      rfl

/-- One of the alternatives is true where one of the assertions holds; none of
them is left out, since no branch is empty. -/
theorem Assertion.someTrue_iff_of_alternatives {v : String → Bool} (hv : v "true" = true)
    {document target : String} (assertions : List Assertion)
    (ha : Assertion.AllMeet .valued assertions) {parts : List (Formula String)}
    (h : Assertion.alternatives document target assertions = .ok parts) :
    SomeTrue (readText v) parts ↔ Assertion.SomeHolds v document target assertions := by
  match assertions with
  | [] =>
      cases h
      exact iff_of_false not_someTrue_nil not_false
  | a :: assertions =>
      obtain ⟨branch, rest, hbranch, hrest, rfl⟩ := Assertion.alternatives_cons_eq_ok.1 h
      -- no branch is left out
      have hown := (Assertion.meets_iff.1 ha.1).1
      rw [alternative_of_not_isEmpty (Assertion.isEmpty_of_branch hown hbranch), someTrue_append,
        someTrue_toFormula]
      exact or_congr (Assertion.holds_iff_of_branch hv a ha.1 hbranch)
        (Assertion.someTrue_iff_of_alternatives hv assertions ha.2 hrest)

/-- The rule of a field is the choice between its assertions. -/
theorem Field.holds_iff_of_rule {v : String → Bool} (hv : v "true" = true) {document : String}
    (f : Field) (hf : f.Meets .valued) {own : Rule} (h : Field.rule document f = .ok own) :
    own.holds v = true ↔ f.Holds v document := by
  match f with
  | ⟨name, optional, assertions⟩ =>
      obtain ⟨parts, hparts, rfl⟩ := Field.rule_eq_ok.1 h
      rw [Rule.holds, Junction.holds_any_iff]
      exact Assertion.someTrue_iff_of_alternatives hv assertions hf hparts

/-- **The rule of a validator says what the validator accepts.** A check and an
enumeration are one condition; the rule of a map stands behind the check of its
type; a choice is true where one of its validators accepts. -/
theorem Validator.holds_iff_of_rule {v : String → Bool} (hv : v "true" = true)
    {document target : String} (w : Validator) (hw : w.Meets .valued) {own : Rule}
    (h : Validator.rule ⟨document, some target⟩ w = .ok own) :
    own.holds v = true ↔ w.Holds v document target := by
  match w with
  | .check condition rule => exact holds_iff_of_checkRule h
  | .oneOf values rule =>
      refine (holds_iff_of_checkRule h).trans (and_congr ?_ Iff.rfl)
      exact conditionHolds_this (isBlank_jsonList values)
  | .map rule schema =>
      obtain ⟨place, base, inner, hplace, hbase, hinner, rfl⟩ := Validator.rule_map_eq_ok.1 h
      obtain rfl : target = place := Option.some.inj hplace
      have hmap : ConditionHolds v ⟨document, some target⟩
          ⟨.field .this, .ofType, .literal "map"⟩
          ↔ v (Operator.ofType.apply target "map") = true :=
        conditionHolds_this (by decide +kernel)
      have hnested := Schema.holds_iff_of_rule hv schema hw.2 hinner
      have hown := @holds_iff_of_checkRule v _ _ _ _ hbase
      -- the rule of the map stands behind the parts of the check
      obtain ⟨expression, extra, -, -, rfl⟩ := checkRule_eq_ok.1 hbase
      rw [Rule.holds, Junction.holds_push_all_iff, noneFalse_toFormula, ← Rule.holds, ← Rule.holds,
        hown, hmap, hnested, and_assoc]
      rfl
  | .anyOf validators =>
      obtain ⟨parts, hparts, rfl⟩ := Validator.rule_anyOf_eq_ok.1 h
      rw [Rule.holds, Junction.holds_any_iff]
      exact Validator.someTrue_iff_of_parts hv validators hw.2 hparts

/-- One of the parts of a choice is true where one of its validators accepts.
Unlike an assertion a validator may leave an empty rule, which a choice keeps.
-/
theorem Validator.someTrue_iff_of_parts {v : String → Bool} (hv : v "true" = true)
    {document target : String} (validators : List Validator)
    (hw : Validator.AllMeet .valued validators) {parts : List (Formula String)}
    (h : Validator.parts ⟨document, some target⟩ validators = .ok parts) :
    SomeTrue (readText v) parts ↔ Validator.SomeHolds v document target validators := by
  match validators with
  | [] =>
      cases h
      exact iff_of_false not_someTrue_nil not_false
  | w :: validators =>
      obtain ⟨rule, rest, hrule, hrest, rfl⟩ := Validator.parts_cons_eq_ok.1 h
      rw [someTrue_cons, someTrue_toFormula]
      exact or_congr (Validator.holds_iff_of_rule hv w hw.1 hrule)
        (Validator.someTrue_iff_of_parts hv validators hw.2 hrest)

/-- The rule of a member is that of its field or of its validator, at the path
of its key. -/
theorem Member.holds_iff_of_rule {v : String → Bool} (hv : v "true" = true) {document : String}
    (m : Member) (hm : m.Meets .valued) {own : Rule} (h : Member.rule document m = .ok own) :
    own.holds v = true ↔ m.Holds v document := by
  match m with
  | .field f => exact Field.holds_iff_of_rule hv f hm.2 h
  | .checked name optional validator => exact Validator.holds_iff_of_rule hv validator hm.2 h

/-- **The demands of the members say that all of them hold.** A member whose
rule is empty is left out, and demands nothing; one that may be absent stands
beside the guard that it is. -/
theorem Member.noneFalse_iff_of_demands {v : String → Bool} (hv : v "true" = true)
    {document : String} (members : List Member) (hm : Member.AllMeet .valued members)
    {parts : List (Formula String)} (h : Member.demands document members = .ok parts) :
    NoneFalse (readText v) parts ↔ Member.AllHold v document members := by
  match members with
  | [] =>
      cases h
      exact iff_of_true noneFalse_nil trivial
  | m :: members =>
      obtain ⟨own, rest, hown, hrest, rfl⟩ := Member.demands_cons_eq_ok.1 h
      have hrule := Member.holds_iff_of_rule hv m hm.1 hown
      -- what is left out of the rule is what demands nothing
      rw [noneFalse_append, Member.noneFalse_demand (Member.isEmpty_iff hm.1 hown), hrule]
      exact and_congr Iff.rfl (Member.noneFalse_iff_of_demands hv members hm.2 hrest)

/-- **The rule of a schema says what the schema means**, in the form that
follows its members one by one: the guards of the keys come first, then the
demands. -/
theorem Schema.holds_iff_of_rule {v : String → Bool} (hv : v "true" = true) {document : String}
    (s : Schema) (hs : s.Meets .valued) {rule : Rule} (h : Schema.rule document s = .ok rule) :
    rule.holds v = true ↔ s.Holds v document := by
  match s with
  | ⟨members⟩ =>
      obtain ⟨demands, hdemands, rfl⟩ := Schema.rule_eq_ok.1 h
      rw [Rule.holds, Junction.holds_all_iff, noneFalse_cons, noneFalse_toFormula, ← Rule.holds]
      exact and_congr (Schema.holds_keyGuards ⟨members⟩)
        (Member.noneFalse_iff_of_demands hv members hs hdemands)

end

/-- **The rule of a schema says what the schema means**: it is true exactly
where the keys are as declared, and every member that demands something holds,
or may be absent and is. Building a schema in steps leaves it `valued`
(`Field.Step.keeps_valued`). -/
theorem Schema.holds_rule_iff {v : String → Bool} (hv : v "true" = true) {document : String}
    {s : Schema} (hs : s.Meets .valued) {rule : Rule} (h : Schema.rule document s = .ok rule) :
    rule.holds v = true
      ↔ KeysHold v document s ∧ ∀ m ∈ s.members, m.Demands →
          (m.isOptional = true ∧ v (absent document m.name) = true) ∨ m.Holds v document :=
  (Schema.holds_iff_of_rule hv s hs h).trans Schema.holds_iff

/-- A nickname that may be left out or null, and is otherwise not the name. -/
def Field.nickname : Field :=
  (Field.empty "nick").run
    [.accept (.plain .null),
      .restrict .string ⟨.all, [.leaf (.literal " "),
        .leaf (.condition ⟨.field .this, .notEqual, .field (.named "name")⟩)]⟩,
      .allowAbsent]

/-- A nickname, a key of which nothing is known, and a place. -/
def Schema.profile : Schema :=
  Schema.empty.run
    [.declare (.field Field.nickname), .declare (.field (Field.empty "spare")),
      .declare (.checked "home" false
        (.map none ⟨[.field ((Field.empty "zip").accept (.oneOf [.text "A", .integer 1]))]⟩))]

/-- What is true of a document that is a profile, text by text; and without a
nickname that is null the other texts still make it one. -/
theorem Schema.holds_profile :
    profile.Meets .valued ∧ ∃ rule, Schema.rule "d" profile = .ok rule
      ∧ (∀ v : String → Bool, v "true" = true →
          (KeysHold v "d" profile ∧ (∀ m ∈ profile.members, m.Demands →
              (m.isOptional = true ∧ v (absent "d" m.name) = true) ∨ m.Holds v "d")
            ↔ v "d.keys().hasAll([\"spare\",\"home\"])" = true
              ∧ v "d.keys().hasOnly([\"nick\",\"spare\",\"home\"])" = true
              ∧ (v "!d.keys().hasAny([\"nick\"])" = true ∨ v "d.nick == null" = true
                ∨ v "d.nick is string" = true ∧ v "d.nick != d.name" = true)
              ∧ v "d.home is map" = true
              ∧ v "d.home.keys().hasAll([\"zip\"])" = true
              ∧ v "d.home.keys().hasOnly([\"zip\"])" = true
              ∧ v "d.home.zip in [\"A\",1]" = true))
      ∧ ∃ v : String → Bool, v "true" = true ∧ v "d.nick == null" = false ∧ rule.holds v = true
        ∧ KeysHold v "d" profile ∧ ∀ m ∈ profile.members, m.Demands →
          (m.isOptional = true ∧ v (absent "d" m.name) = true) ∨ m.Holds v "d" := by
  have hnick : Field.nickname.Meets .valued := by
    refine Field.meets_run trivial fun step hstep => Field.Step.keeps_valued fun shape heq => ?_
    subst heq
    simp only [List.mem_cons, List.not_mem_nil, or_false, Field.Step.accept.injEq] at hstep
    rcases hstep with rfl | hstep | hstep
    · exact ⟨by simp, trivial⟩
    · cases hstep
    · cases hstep
  have hmeets : profile.Meets .valued := by
    refine Schema.meets_run trivial fun step hstep => ?_
    simp only [List.mem_cons, List.not_mem_nil, or_false] at hstep
    rcases hstep with rfl | rfl | rfl
    · exact ⟨trivial, hnick⟩
    · exact ⟨trivial, trivial⟩
    · exact ⟨trivial, trivial, ⟨trivial, ⟨fun heq => by simp at heq, trivial⟩, trivial⟩, trivial⟩
  obtain ⟨rule, hrule⟩ : ∃ rule, Schema.rule "d" profile = .ok rule := ⟨_, rfl⟩
  refine ⟨hmeets, rule, hrule, fun v hv => ?_, ?_⟩
  · refine (Schema.holds_rule_iff hv hmeets hrule).symm.trans ?_
    cases hrule
    show [[v "d.keys().hasAll([\"spare\",\"home\"])",
          v "d.keys().hasOnly([\"nick\",\"spare\",\"home\"])"].all id,
        [v "!d.keys().hasAny([\"nick\"])",
          [[v "d.nick == null"].all id,
            [v "d.nick is string", [v "d.nick != d.name"].all id].all id].any id].any id,
        [v "d.home is map",
          [[v "d.home.keys().hasAll([\"zip\"])", v "d.home.keys().hasOnly([\"zip\"])"].all id,
            [[v "d.home.zip in [\"A\",1]"].all id].any id].all id].all id].all id = true ↔ _
    simp [and_assoc]
  · have hholds : rule.holds (fun expression => expression != "d.nick == null") = true := by
      cases hrule
      decide +kernel
    have htrue : ("true" != "d.nick == null") = true := by decide +kernel
    exact ⟨_, htrue, by decide +kernel, hholds,
      (Schema.holds_rule_iff htrue hmeets hrule).1 hholds⟩

end SecurityRules
