/-
  SecurityRules.Proofs.Schema.Failure
  ────────────────────────────────
  **FAULTS INSIDE A COLLECTION.**

  Whatever is built inside one collection, and however deep, leaves the bare
  cause when it cannot be built: only the block of a collection wraps a fault in
  a path.

    * `Predicate.raises_resolve` — for predicates in a scope;
    * `Rule.raises_render_cause` — for the text of a rule;
    * `Schema.raises_rule` — for schemas, along their pieces.
-/
import SecurityRules.Schema.Rules
import SecurityRules.Proofs.Formula.Failure

namespace SecurityRules

/-- Whether a fault is a cause by itself, with no collection around it. -/
def Fault.IsCause (fault : Fault) : Prop :=
  fault.cause = fault

/-! ## §1. Predicates and rules. -/

variable {scope : Scope}

/-- A reference fails by its name or by an owner that is missing. -/
theorem Reference.raises_resolve (r : Reference) : Raises Fault.IsCause (r.resolve scope) := by
  cases r with
  | this =>
      rw [Reference.resolve]
      cases scope.owner with
      | none => exact raises_error rfl
      | some expression => exact raises_ok _
  | named name =>
      rw [Reference.resolve]
      split
      · exact raises_error rfl
      · exact raises_ok _

/-- An operand fails by being blank, or as its reference does. -/
theorem Operand.raises_resolve (o : Operand) : Raises Fault.IsCause (o.resolve scope) := by
  cases o with
  | literal text =>
      rw [Operand.resolve]
      split
      · exact raises_error rfl
      · exact raises_ok _
  | field reference => exact reference.raises_resolve
  | lookup via path =>
      rw [Operand.resolve]
      split
      · exact raises_error rfl
      · exact via.raises_resolve.map _

theorem Condition.raises_resolve (c : Condition) : Raises Fault.IsCause (c.resolve scope) :=
  c.left.raises_resolve.bind fun _ => c.right.raises_resolve.bind fun _ => raises_ok _

theorem Clause.raises_resolve (c : Clause) : Raises Fault.IsCause (c.resolve scope) := by
  cases c with
  | literal text => exact raises_ok _
  | condition c => exact c.raises_resolve.map _

/-- **Resolving a predicate fails with a bare cause**, that of a leaf. -/
theorem Predicate.raises_resolve (p : Predicate) : Raises Fault.IsCause (p.resolve scope) := by
  intro fault hfault
  -- the fault is that of some clause
  rw [← faultOf_eq_some, Predicate.resolve, Junction.faultOf_traverse] at hfault
  obtain ⟨c, -, hc⟩ := List.exists_of_findSome?_eq_some hfault
  exact c.raises_resolve fault (faultOf_eq_some.1 hc)

/-- So does rendering a rule. -/
theorem Rule.raises_render_cause (rule : Rule) : Raises Fault.IsCause rule.render := by
  intro fault hfault
  rw [rule.raises_render fault hfault]
  rfl

theorem raises_extraParts (rule : Option Predicate) :
    Raises Fault.IsCause (extraParts scope rule) := by
  cases rule with
  | none => exact raises_ok _
  | some p => exact p.raises_resolve.map _

/-- The check of the elements of a list can only fail in being rendered. -/
theorem raises_elementParts (list : String) (alternatives : List (Formula String)) :
    Raises Fault.IsCause (elementParts list alternatives) := by
  rw [elementParts]
  split
  · exact raises_ok _
  · exact (Rule.raises_render_cause _).map _

/-! ## §2. Schemas. -/

mutual

/-- What a shape demands fails as what is nested in it does. -/
theorem Shape.raises_parts (document target : String) (shape : Shape) :
    Raises Fault.IsCause (Shape.parts document target shape) := by
  match shape with
  | .plain kind => exact raises_ok _
  | .oneOf values => exact raises_ok _
  | .listOf element =>
      rw [Shape.parts]
      exact (Assertion.raises_alternatives document _ element).bind fun _ =>
        raises_elementParts _ _
  | .mapOf schema =>
      rw [Shape.parts]
      exact (Schema.raises_rule target schema).bind fun _ => raises_ok _

/-- A branch fails as its shape or its predicate does. -/
theorem Assertion.raises_branch (document target : String) (a : Assertion) :
    Raises Fault.IsCause (Assertion.branch document target a) := by
  match a with
  | ⟨shape, rule⟩ =>
      rw [Assertion.branch]
      exact (Shape.raises_parts document target shape).bind fun _ =>
        (raises_extraParts rule).bind fun _ => raises_ok _

theorem Assertion.raises_alternatives (document target : String) (assertions : List Assertion) :
    Raises Fault.IsCause (Assertion.alternatives document target assertions) := by
  match assertions with
  | [] => exact raises_ok _
  | a :: assertions =>
      rw [Assertion.alternatives]
      exact (Assertion.raises_branch document target a).bind fun _ =>
        (Assertion.raises_alternatives document target assertions).bind fun _ => raises_ok _

theorem Field.raises_rule (document : String) (f : Field) :
    Raises Fault.IsCause (Field.rule document f) := by
  match f with
  | ⟨name, _, assertions⟩ =>
      rw [Field.rule]
      exact (Assertion.raises_alternatives document _ assertions).bind fun _ => raises_ok _

/-- A validator that mounts a schema needs an owner; without one it fails with
the same cause as a predicate. -/
theorem Validator.raises_rule (scope : Scope) (v : Validator) :
    Raises Fault.IsCause (Validator.rule scope v) := by
  match v with
  | .check condition rule => exact Predicate.raises_resolve _
  | .oneOf values rule => exact Predicate.raises_resolve _
  | .map rule schema =>
      rw [Validator.rule]
      exact (Reference.raises_resolve _).bind fun target =>
        (Predicate.raises_resolve _).bind fun _ =>
          (Schema.raises_rule target schema).bind fun _ => raises_ok _
  | .anyOf validators =>
      rw [Validator.rule]
      exact (Validator.raises_parts scope validators).bind fun _ => raises_ok _

theorem Validator.raises_parts (scope : Scope) (validators : List Validator) :
    Raises Fault.IsCause (Validator.parts scope validators) := by
  match validators with
  | [] => exact raises_ok _
  | v :: validators =>
      rw [Validator.parts]
      exact (Validator.raises_rule scope v).bind fun _ =>
        (Validator.raises_parts scope validators).bind fun _ => raises_ok _

theorem Member.raises_rule (document : String) (m : Member) :
    Raises Fault.IsCause (Member.rule document m) := by
  match m with
  | .field f => exact Field.raises_rule document f
  | .checked name optional validator => exact Validator.raises_rule _ validator

/-- **Nothing in a schema wraps a fault**: the paths around it come from
collections alone. -/
theorem Member.raises_demands (document : String) (members : List Member) :
    Raises Fault.IsCause (Member.demands document members) := by
  match members with
  | [] => exact raises_ok _
  | m :: members =>
      rw [Member.demands]
      exact (Member.raises_rule document m).bind fun _ =>
        (Member.raises_demands document members).bind fun _ => raises_ok _

/-- **The rule of a schema leaves the bare cause.** -/
theorem Schema.raises_rule (document : String) (s : Schema) :
    Raises Fault.IsCause (Schema.rule document s) := by
  match s with
  | ⟨members⟩ =>
      rw [Schema.rule]
      exact (Member.raises_demands document members).bind fun _ => raises_ok _

end

end SecurityRules
