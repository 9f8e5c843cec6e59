/-
  SecurityRules.Proofs.Schema.Buildable
  ────────────────────────────────
  **SCHEMAS THAT CAN BE BUILT.**

  A predicate that can be told from its shorthand lacks nothing: no literal is
  blank, no name is empty, no junction is without terms.  All that can be wrong
  with it is that it mentions `this` where nothing owns the predicate.  Inside a
  schema something always does, so a schema with such predicates, and without a
  choice between no validators, can be built for every document and has a text.

    * `Predicate.faultOf_resolve_of_printable` — the fault of a printable
      predicate, in every scope;
    * `Predicate.speaks_of_resolve` — what it stands for has a text;
    * `Schema.exists_rule` — a schema can be built, along its pieces.
-/
import SecurityRules.Proofs.Predicate.Faults
import SecurityRules.Proofs.Shorthand.RoundTrip
import SecurityRules.Proofs.Shorthand.JsonText
import SecurityRules.Proofs.Schema.Building
import SecurityRules.Proofs.Schema.Requirement

namespace SecurityRules

open SecurityRules.Shorthand

/-! ## §1. Predicates that mention `this`. -/

/-- Whether an operand speaks of the owning field, or looks into the document
that it points at. -/
def Operand.mentionsThis : Operand → Bool
  | .literal _ => false
  | .field reference => reference == .this
  | .lookup via _ => via == .this

/-- Whether an operand of a clause mentions `this`. -/
def Clause.mentionsThis : Clause → Bool
  | .literal _ => false
  | .condition c => c.left.mentionsThis || c.right.mentionsThis

/-- Whether a clause of a predicate mentions `this`, however deep it stands. -/
def Predicate.mentionsThis (p : Predicate) : Bool :=
  p.toFormula.leaves.any Clause.mentionsThis

/-- The fault that a mention of `this` leaves in a scope. -/
def Scope.unbound (scope : Scope) (mentions : Bool) : Option Fault :=
  if mentions && scope.owner.isNone then some .unboundThis else none

variable {scope : Scope}

/-- In a scope with an owner nothing is unbound. -/
theorem Scope.unbound_of_owner {target : String} (h : scope.owner = some target)
    (mentions : Bool) : scope.unbound mentions = none := by
  rw [unbound, h, Option.isNone_some, Bool.and_false]
  rfl

/-- Two parts leave a fault together where one of them does. -/
theorem Scope.unbound_or (a b : Bool) :
    (scope.unbound a).or (scope.unbound b) = scope.unbound (a || b) := by
  unfold unbound
  cases scope.owner.isNone <;> cases a <;> cases b <;> rfl

theorem ne_empty_of_isPath {text : String} (h : isPath text.toList = true) : text ≠ "" := by
  rintro rfl
  cases h

/-- A reference that is well spelled can only fail by being `this`. -/
theorem Reference.faultIn_of_wellSpelled {r : Reference} (h : r.WellSpelled) :
    r.faultIn scope = scope.unbound (r == .this) := by
  cases r with
  | this => rfl
  | named name => exact if_neg (ne_empty_of_isPath (isPath_of_isName h.1))

/-- So can an operand, since it is never blank. -/
theorem Operand.faultIn_of_wellSpelled {o : Operand} (h : o.WellSpelled) :
    o.faultIn scope = scope.unbound o.mentionsThis := by
  cases o with
  | literal text =>
      rw [faultIn, IsLiteral.isBlank_eq_false h]
      rfl
  | field reference => exact Reference.faultIn_of_wellSpelled h
  | lookup via path =>
      rw [faultIn, if_neg (ne_empty_of_isPath h.2)]
      exact Reference.faultIn_of_wellSpelled h.1

/-- So can a clause, and the fault is the same for both its sides. -/
theorem Clause.faultOf_resolve_of_wellSpelled {c : Clause} (h : c.WellSpelled) :
    faultOf (c.resolve scope) = scope.unbound c.mentionsThis := by
  rw [Clause.faultOf_resolve]
  cases c with
  | literal text => rfl
  | condition c =>
      rw [operands, findSome?_cons_eq_or, List.findSome?_singleton,
        Operand.faultIn_of_wellSpelled h.1, Operand.faultIn_of_wellSpelled h.2, Scope.unbound_or]
      rfl

/-- **The fault of a printable predicate** is that it mentions `this` in a scope
without an owner. -/
theorem Predicate.faultOf_resolve_of_printable {p : Predicate} (h : p.Printable) :
    faultOf (p.resolve scope) = scope.unbound p.mentionsThis := by
  have hclauses : ∀ clauses : List Clause, (∀ c ∈ clauses, c.WellSpelled) →
      clauses.findSome? (fun c => faultOf (c.resolve scope))
        = scope.unbound (clauses.any Clause.mentionsThis) := by
    intro clauses hspelled
    induction clauses with
    | nil => rfl
    | cons c clauses ih =>
        obtain ⟨hc, hrest⟩ := List.forall_mem_cons.1 hspelled
        rw [findSome?_cons_eq_or, Clause.faultOf_resolve_of_wellSpelled hc, ih hrest,
          Scope.unbound_or, List.any_cons]
  rw [resolve, Junction.faultOf_traverse]
  exact hclauses _ h.forall_leaves

/-- What a printable predicate stands for has a text. -/
theorem Predicate.speaks_of_resolve {p : Predicate} (h : p.Printable) {rule : Rule}
    (hrule : p.resolve scope = .ok rule) : rule.toFormula.Speaks := by
  -- no clause is dropped, so no junction loses a part
  refine Formula.Filled.traverse (h.mono (fun c hc => ?_) (Nat.le_refl 1))
    (Predicate.traverse_of_resolve hrule)
  exact ⟨Clause.resolve_ne_none (Clause.isBlank_of_wellSpelled hc),
    fun _ => Clause.isBlank_of_resolve⟩

/-- **In a scope with an owner a printable predicate becomes a rule that
speaks.** -/
theorem Predicate.exists_resolve {p : Predicate} (h : p.Printable) {target : String}
    (howner : scope.owner = some target) :
    ∃ rule, p.resolve scope = .ok rule ∧ rule.toFormula.Speaks := by
  -- with an owner the only possible fault is gone
  have hnone : faultOf (p.resolve scope) = none := by
    rw [Predicate.faultOf_resolve_of_printable h, Scope.unbound_of_owner howner]
  obtain ⟨rule, hrule⟩ := faultOf_eq_none.1 hnone
  exact ⟨rule, hrule, Predicate.speaks_of_resolve h hrule⟩

/-! ## §2. Parts that do not nest. -/

/-- Whether the predicate that has to hold besides can be told from its
shorthand, if there is one. -/
def ExtraPrintable (rule : Option Predicate) : Prop :=
  ∀ p ∈ rule, p.Printable

/-- Whether a validator by itself can be built for a field. -/
def Validator.Buildable : Validator → Prop
  | .check condition rule => (Clause.condition condition).WellSpelled ∧ ExtraPrintable rule
  | .oneOf _ rule => ExtraPrintable rule
  | .map rule _ => ExtraPrintable rule
  | .anyOf validators => validators ≠ []

/-- Every predicate can be told from its shorthand, and no choice is empty. -/
def Requirement.buildable : Requirement where
  assertion a := ExtraPrintable a.rule
  validator v := v.Buildable

/-- A printable predicate besides leaves parts that speak. -/
theorem exists_extraParts {rule : Option Predicate} (h : ExtraPrintable rule) {target : String}
    (howner : scope.owner = some target) :
    ∃ parts, extraParts scope rule = .ok parts ∧ ∀ part ∈ parts, part.Speaks := by
  cases rule with
  | none => exact ⟨[], rfl, List.forall_mem_nil _⟩
  | some p =>
      obtain ⟨rule, hrule, hspeaks⟩ := Predicate.exists_resolve (h p rfl) howner
      exact ⟨_, extraParts_some_eq_ok.2 ⟨rule, hrule, rfl⟩, List.forall_mem_singleton.2 hspeaks⟩

/-- A check of the value with a printable predicate besides leaves a rule that
speaks. -/
theorem exists_checkRule {condition : Condition} (hc : (Clause.condition condition).WellSpelled)
    {rule : Option Predicate} (h : ExtraPrintable rule) {target : String}
    (howner : scope.owner = some target) :
    ∃ own, checkRule scope condition rule = .ok own ∧ own.toFormula.Speaks := by
  have hcondition : (Predicate.ofCondition condition).Printable :=
    .node (Nat.le_refl 1) (List.forall_mem_singleton.2 (.leaf hc))
  refine Predicate.exists_resolve ?_ howner
  cases rule with
  | none => exact hcondition
  | some p => exact hcondition.push (h p rfl)

/-- A condition between the value and a literal can be told from its
shorthand. -/
theorem Clause.wellSpelled_this (op : Operator) {text : String} (h : IsLiteral text) :
    (Clause.condition ⟨.field .this, op, .literal text⟩).WellSpelled :=
  ⟨trivial, h⟩

theorem speaks_text {expression : String} (h : Text.isBlank expression = false) :
    (Formula.text expression).Speaks :=
  .leaf h

/-- The tests of shapes are expressions, and none of them is blank. -/
theorem Shape.speaks_test (target : String) (restricted : Bool) (shape : Shape) :
    ∀ part ∈ Shape.test target restricted shape, part.Speaks := by
  unfold Shape.test
  split
  · exact List.forall_mem_singleton.2 (speaks_text (Operator.isBlank_apply _ _ _))
  · split
    · exact List.forall_mem_nil _
    · exact List.forall_mem_singleton.2 (speaks_text (by decide +kernel))
  · exact List.forall_mem_singleton.2 (speaks_text (Operator.isBlank_apply _ _ _))
  · intro part hpart
    rw [Option.mem_toList, Option.map_eq_some_iff] at hpart
    obtain ⟨typeName, -, rfl⟩ := hpart
    exact speaks_text (Operator.isBlank_apply _ _ _)

/-- A junction of parts that have texts has one, if it is not left out. -/
theorem speaks_of_isEmpty {rule : Rule} (h : ∀ part ∈ rule.parts, part.Speaks)
    (hne : rule.isEmpty = false) : rule.toFormula.Speaks :=
  .node (List.length_pos_iff.2 (List.isEmpty_eq_false_iff.1 hne)) h

/-- An assertion of which something is left joins parts that speak. -/
theorem speaks_alternative {branch : Rule} (h : ∀ part ∈ branch.parts, part.Speaks) :
    ∀ part ∈ alternative branch, part.Speaks := by
  unfold alternative
  split
  · exact List.forall_mem_nil _
  · next hne => exact List.forall_mem_singleton.2 (speaks_of_isEmpty h (by simpa using hne))

/-- The check of the elements has a text, since its alternatives speak; where
there are none there is no check. -/
theorem exists_elementParts (list : String) {alternatives : List (Formula String)}
    (h : ∀ part ∈ alternatives, part.Speaks) :
    ∃ parts, elementParts list alternatives = .ok parts ∧ ∀ part ∈ parts, part.Speaks := by
  by_cases hnil : alternatives = []
  · exact ⟨[], by rw [hnil, elementParts_nil], List.forall_mem_nil _⟩
  · have hchoice : (Junction.toFormula ⟨.any, alternatives⟩).Speaks :=
      .node (List.length_pos_iff.2 hnil) h
    obtain ⟨check, hcheck⟩ := Rule.exists_render hchoice
    refine ⟨_, (elementParts_eq_ok hnil).2 ⟨check, hcheck, rfl⟩, List.forall_mem_singleton.2 ?_⟩
    exact speaks_text (isBlank_forEachElement _ _ _)

theorem Schema.speaks_keyGuards (s : Schema) (document : String) :
    (s.keyGuards document).toFormula.Speaks := by
  have hall : Text.isBlank ".hasAll(" = false := by decide +kernel
  have honly : Text.isBlank ".hasOnly(" = false := by decide +kernel
  refine .node (by decide : 1 ≤ 2) (List.forall_mem_cons.2 ⟨?_, List.forall_mem_singleton.2 ?_⟩)
  · exact speaks_text (isBlank_keysCall hall)
  · exact speaks_text (isBlank_keysCall honly)

/-- What a member adds speaks: the guard that the key is absent is an
expression. -/
theorem Member.speaks_demand (m : Member) (document : String) {own : Rule}
    (h : ∀ part ∈ own.parts, part.Speaks) : ∀ part ∈ m.demand document own, part.Speaks := by
  unfold Member.demand
  split
  · exact List.forall_mem_nil _
  next hne =>
    have hown : own.toFormula.Speaks := speaks_of_isEmpty h (by simpa using hne)
    split
    · refine List.forall_mem_singleton.2 (.node (by decide : 1 ≤ 2) ?_)
      exact List.forall_mem_cons.2
        ⟨speaks_text (isBlank_absent _ _), List.forall_mem_singleton.2 hown⟩
    · exact List.forall_mem_singleton.2 hown

/-! ## §3. Schemas. -/

mutual

/-- **The demands of a shape are there and speak**, for the elements of a list
and for the keys of a map by induction. -/
theorem Shape.exists_parts (document target : String) (shape : Shape)
    (hs : shape.Meets .buildable) :
    ∃ parts, Shape.parts document target shape = .ok parts ∧ ∀ part ∈ parts, part.Speaks := by
  match shape with
  | .plain kind => exact ⟨[], by rw [Shape.parts], List.forall_mem_nil _⟩
  | .oneOf values => exact ⟨[], by rw [Shape.parts], List.forall_mem_nil _⟩
  | .listOf element =>
      -- the check of the elements is rendered on the way
      obtain ⟨alternatives, halt, hspeak⟩ :=
        Assertion.exists_alternatives document (elementName target) element hs
      obtain ⟨parts, hparts, hspeaks⟩ := exists_elementParts target hspeak
      exact ⟨parts, Shape.parts_listOf_eq_ok.2 ⟨alternatives, halt, hparts⟩, hspeaks⟩
  | .mapOf schema =>
      obtain ⟨rule, hrule, hspeaks⟩ := Schema.exists_rule target schema hs
      exact ⟨_, Shape.parts_mapOf_eq_ok.2 ⟨rule, hrule, rfl⟩, List.forall_mem_singleton.2 hspeaks⟩

/-- A branch joins three kinds of parts, all of which speak. -/
theorem Assertion.exists_branch (document target : String) (a : Assertion)
    (ha : a.Meets .buildable) :
    ∃ branch, Assertion.branch document target a = .ok branch
      ∧ ∀ part ∈ branch.parts, part.Speaks := by
  match a with
  | ⟨shape, rule⟩ =>
      obtain ⟨further, hfurther, hshape⟩ := Shape.exists_parts document target shape ha.2
      -- the value owns the predicate that it has to meet besides
      have howner : Scope.owner ⟨document, some target⟩ = some target := rfl
      obtain ⟨extra, hextra, hrule⟩ := exists_extraParts ha.1 howner
      refine ⟨_, Assertion.branch_eq_ok.2 ⟨further, extra, hfurther, hextra, rfl⟩, ?_⟩
      have htest := Shape.speaks_test target rule.isSome shape
      exact List.forall_mem_append.2 ⟨List.forall_mem_append.2 ⟨htest, hshape⟩, hrule⟩

/-- The alternatives are there one after the other. -/
theorem Assertion.exists_alternatives (document target : String) (assertions : List Assertion)
    (ha : Assertion.AllMeet .buildable assertions) :
    ∃ parts, Assertion.alternatives document target assertions = .ok parts
      ∧ ∀ part ∈ parts, part.Speaks := by
  match assertions with
  | [] => exact ⟨[], by rw [Assertion.alternatives], List.forall_mem_nil _⟩
  | a :: assertions =>
      obtain ⟨branch, hbranch, hfirst⟩ := Assertion.exists_branch document target a ha.1
      obtain ⟨rest, hrest, hspeak⟩ :=
        Assertion.exists_alternatives document target assertions ha.2
      exact ⟨_, Assertion.alternatives_cons_eq_ok.2 ⟨branch, rest, hbranch, hrest, rfl⟩,
        List.forall_mem_append.2 ⟨speaks_alternative hfirst, hspeak⟩⟩

/-- The parts of the rule of a field speak. There may be none, so the rule need
not speak itself. -/
theorem Field.exists_rule (document : String) (f : Field) (hf : f.Meets .buildable) :
    ∃ own, Field.rule document f = .ok own ∧ ∀ part ∈ own.parts, part.Speaks := by
  match f with
  | ⟨name, optional, assertions⟩ =>
      obtain ⟨parts, hparts, hspeak⟩ :=
        Assertion.exists_alternatives document (Text.joinPath document name) assertions hf
      exact ⟨_, Field.rule_eq_ok.2 ⟨parts, hparts, rfl⟩, hspeak⟩

/-- **The rule of a validator is there and speaks**: a choice has at least one
part that does. -/
theorem Validator.exists_rule {scope : Scope} {target : String} (howner : scope.owner = some target)
    (v : Validator) (hv : v.Meets .buildable) :
    ∃ own, Validator.rule scope v = .ok own ∧ own.toFormula.Speaks := by
  match v with
  | .check condition rule => exact exists_checkRule hv.1 hv.2 howner
  | .oneOf values rule =>
      exact exists_checkRule (Clause.wellSpelled_this _ (isLiteral_jsonList values).1) hv howner
  | .map rule schema =>
      -- the map's own keys are checked behind its type and its predicate
      have hmap : IsLiteral "map" := by decide +kernel
      obtain ⟨base, hbase, hspeaks⟩ :=
        exists_checkRule (Clause.wellSpelled_this _ hmap) hv.1 howner
      obtain ⟨inner, hinner, hnested⟩ := Schema.exists_rule target schema hv.2
      exact ⟨_, Validator.rule_map_eq_ok.2 ⟨target, base, inner, howner, hbase, hinner, rfl⟩,
        hspeaks.push hnested⟩
  | .anyOf validators =>
      -- there are as many parts as validators, so the choice is not empty
      obtain ⟨parts, hparts, hlen, hspeak⟩ := Validator.exists_parts howner validators hv.2
      refine ⟨_, Validator.rule_anyOf_eq_ok.2 ⟨parts, hparts, rfl⟩, .node ?_ hspeak⟩
      rw [hlen]
      exact List.length_pos_iff.2 hv.1

/-- The parts of a choice are as many as its validators. -/
theorem Validator.exists_parts {scope : Scope} {target : String}
    (howner : scope.owner = some target) (validators : List Validator)
    (hv : Validator.AllMeet .buildable validators) :
    ∃ parts, Validator.parts scope validators = .ok parts ∧ parts.length = validators.length
      ∧ ∀ part ∈ parts, part.Speaks := by
  match validators with
  | [] => exact ⟨[], by rw [Validator.parts], rfl, List.forall_mem_nil _⟩
  | v :: validators =>
      obtain ⟨rule, hrule, hspeaks⟩ := Validator.exists_rule howner v hv.1
      obtain ⟨rest, hrest, hlen, hspeak⟩ := Validator.exists_parts howner validators hv.2
      refine ⟨_, Validator.parts_cons_eq_ok.2 ⟨rule, rest, hrule, hrest, rfl⟩, ?_,
        List.forall_mem_cons.2 ⟨hspeaks, hspeak⟩⟩
      rw [List.length_cons, List.length_cons, hlen]

/-- The parts of the rule of a member speak, whichever kind it is. -/
theorem Member.exists_rule (document : String) (m : Member) (hm : m.Meets .buildable) :
    ∃ own, Member.rule document m = .ok own ∧ ∀ part ∈ own.parts, part.Speaks := by
  match m with
  | .field f => exact Field.exists_rule document f hm.2
  | .checked name optional validator =>
      have howner : (Scope.ownedBy ⟨document, none⟩ name).owner
          = some (Text.joinPath document name) := rfl
      obtain ⟨own, hown, hspeaks⟩ := Validator.exists_rule howner validator hm.2
      cases hspeaks with
      | node _ hparts => exact ⟨own, hown, hparts⟩

/-- What all members add is there and speaks; a field without assertions adds
nothing. -/
theorem Member.exists_demands (document : String) (members : List Member)
    (hm : Member.AllMeet .buildable members) :
    ∃ parts, Member.demands document members = .ok parts ∧ ∀ part ∈ parts, part.Speaks := by
  match members with
  | [] => exact ⟨[], by rw [Member.demands], List.forall_mem_nil _⟩
  | m :: members =>
      obtain ⟨own, hown, hfirst⟩ := Member.exists_rule document m hm.1
      obtain ⟨rest, hrest, hspeak⟩ := Member.exists_demands document members hm.2
      exact ⟨_, Member.demands_cons_eq_ok.2 ⟨own, rest, hown, hrest, rfl⟩,
        List.forall_mem_append.2 ⟨m.speaks_demand document hfirst, hspeak⟩⟩

/-- **A schema of printable predicates can be built for every document**, and
has a text. -/
theorem Schema.exists_rule (document : String) (s : Schema) (hs : s.Meets .buildable) :
    ∃ rule, Schema.rule document s = .ok rule ∧ rule.toFormula.Speaks := by
  match s with
  | ⟨members⟩ =>
      obtain ⟨demands, hdemands, hspeak⟩ := Member.exists_demands document members hs
      have hguards := Schema.speaks_keyGuards ⟨members⟩ document
      refine ⟨_, Schema.rule_eq_ok.2 ⟨demands, hdemands, rfl⟩, .node ?_ ?_⟩
      · exact Nat.succ_le_succ (Nat.zero_le demands.length)
      · exact List.forall_mem_cons.2 ⟨hguards, hspeak⟩

end

end SecurityRules
