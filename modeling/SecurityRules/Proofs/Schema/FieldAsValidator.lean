/-
  SecurityRules.Proofs.Schema.FieldAsValidator
  ────────────────────────────────
  **FIELDS WRITTEN AS VALIDATORS.**

  A key can be declared as a field or with a validator.  For most kinds of
  value there is a ready-made validator, so that a field can be written as the
  choice between the validators of its assertions, and a schema of such fields
  as a schema of validators.  A field tests the expression for its value; a
  validator states a condition on `this` and has it resolved.  The two
  declarations demand the same all the same, and fail in the same way.

    * `Schema.asValidators?` and its kin — the translation;
    * `Assertion.exists_asValidator` and its kin — each piece has a translation,
      and both have one rule.

  Main statement: `Schema.rule_asValidators`.
-/
import SecurityRules.Schema.Validator
import SecurityRules.Proofs.Schema.Building
import SecurityRules.Proofs.Schema.Meaning
import SecurityRules.Proofs.Schema.Requirement

namespace SecurityRules

/-! ## §1. The translation. -/

/-- The ready-made validator for a kind, if there is one. It takes the predicate
that has to hold besides. -/
def Kind.asValidator? : Kind → Option (Option Predicate → Validator)
  | .string => some Validator.string
  | .number => some Validator.number
  | .bool => some Validator.boolean
  | .timestamp => some Validator.timestamp
  | .path => some Validator.path
  | .list => some Validator.uncheckedList
  | .null => some Validator.nullable
  | .int | .float | .duration | .latlng | .map | .oneOf | .any => none

mutual

/-- An assertion as a validator. There is none for the elements of a list, nor
for a map with a predicate, which would be checked in another order. -/
def Assertion.asValidator? : Assertion → Option Validator
  | ⟨.plain kind, rule⟩ => kind.asValidator?.map fun validator => validator rule
  | ⟨.oneOf values, rule⟩ => some (.oneOf values rule)
  | ⟨.mapOf schema, none⟩ => (Schema.asValidators? schema).map fun inner => .map none inner
  | ⟨.mapOf _, some _⟩ => none
  | ⟨.listOf _, _⟩ => none

/-- Some assertions as validators, in order. -/
def Assertion.asValidators? : List Assertion → Option (List Validator)
  | [] => some []
  | a :: assertions => do
      let validator ← Assertion.asValidator? a
      let rest ← Assertion.asValidators? assertions
      return validator :: rest

/-- A field as a key declared with a validator, which accepts what one of the
assertions does. -/
def Field.asValidator? : Field → Option Member
  | ⟨name, optional, assertions⟩ =>
      (Assertion.asValidators? assertions).map fun validators =>
        .checked name optional (.anyOf validators)

/-- A member that is a field, declared with a validator instead. -/
def Member.asValidator? : Member → Option Member
  | .field f => Field.asValidator? f
  | .checked _ _ _ => none

/-- Some members, each declared with a validator instead. -/
def Member.asValidators? : List Member → Option (List Member)
  | [] => some []
  | m :: members => do
      let checked ← Member.asValidator? m
      let rest ← Member.asValidators? members
      return checked :: rest

/-- A schema of fields as a schema of validators. -/
def Schema.asValidators? : Schema → Option Schema
  | ⟨members⟩ => (Member.asValidators? members).map fun checked => ⟨checked⟩

end

/-- Whether there is a validator for an assertion by itself. -/
def Assertion.HasValidator : Assertion → Prop
  | ⟨.plain kind, _⟩ => kind ∈ [.string, .number, .bool, .timestamp, .path, .list, .null]
  | ⟨.oneOf _, _⟩ => True
  | ⟨.mapOf _, rule⟩ => rule = none
  | ⟨.listOf _, _⟩ => False

/-- Every key is declared as a field, and there is a validator for each
assertion. -/
def Requirement.translatable : Requirement where
  assertion a := a.HasValidator
  member m := ∃ f : Field, m = .field f

/-! ## §2. Pieces that do not nest. -/

variable {document target : String}

/-- A condition on `this` demands what a shape does that is tested in the same
way and demands nothing else. -/
theorem checkRule_this {op : Operator} {text : String} (htext : Text.isBlank text = false)
    {shape : Shape}
    (htest : ∀ restricted, Shape.test target restricted shape = [.text (op.apply target text)])
    (hparts : Shape.parts document target shape = .ok []) (rule : Option Predicate) :
    checkRule ⟨document, some target⟩ ⟨.field .this, op, .literal text⟩ rule
      = Assertion.branch document target ⟨shape, rule⟩ := by
  rw [checkRule_eq, Condition.resolve_this op htext, Assertion.branch, hparts, htest]
  rfl

/-- A kind with a validator is tested by a condition on `this`. -/
theorem Kind.exists_asValidator {kind : Kind}
    (h : kind ∈ [.string, .number, .bool, .timestamp, .path, .list, .null]) :
    ∃ validator, kind.asValidator? = some validator ∧ ∀ rule,
      validator rule ≠ .anyOf []
        ∧ ∀ document target, Validator.rule ⟨document, some target⟩ (validator rule)
          = Assertion.branch document target ⟨.plain kind, rule⟩ := by
  have htype : ∀ {typeName : String}, Text.isBlank typeName = false →
      (∀ target restricted, Shape.test target restricted (.plain kind)
        = [.text (Operator.ofType.apply target typeName)]) →
      ∀ rule, Validator.ofType typeName rule ≠ .anyOf []
        ∧ ∀ document target, Validator.rule ⟨document, some target⟩ (.ofType typeName rule)
          = Assertion.branch document target ⟨.plain kind, rule⟩ := by
    intro typeName hname htest rule
    refine ⟨by simp [Validator.ofType], fun document target => ?_⟩
    exact checkRule_this hname (htest target) (by rw [Shape.parts]) rule
  simp only [List.mem_cons, List.not_mem_nil, or_false] at h
  -- one type test for each kind; only null is compared
  rcases h with rfl | rfl | rfl | rfl | rfl | rfl | rfl
  · exact ⟨_, rfl, htype (by decide +kernel) fun _ _ => rfl⟩
  · exact ⟨_, rfl, htype (by decide +kernel) fun _ _ => rfl⟩
  · exact ⟨_, rfl, htype (by decide +kernel) fun _ _ => rfl⟩
  · exact ⟨_, rfl, htype (by decide +kernel) fun _ _ => rfl⟩
  · exact ⟨_, rfl, htype (by decide +kernel) fun _ _ => rfl⟩
  · exact ⟨_, rfl, htype (by decide +kernel) fun _ _ => rfl⟩
  · refine ⟨_, rfl, fun rule => ⟨by simp [Validator.nullable], fun document target => ?_⟩⟩
    exact checkRule_this (by decide +kernel) (fun _ => rfl) (by rw [Shape.parts]) rule

/-- A member keeps its key and its leave to be absent. -/
theorem Member.key_of_asValidator? {m checked : Member} (h : m.asValidator? = some checked) :
    checked.name = m.name ∧ checked.isOptional = m.isOptional := by
  cases m with
  | checked name optional validator => simp [Member.asValidator?] at h
  | field f =>
      obtain ⟨name, optional, assertions⟩ := f
      rw [Member.asValidator?, Field.asValidator?, Option.map_eq_some_iff] at h
      obtain ⟨validators, -, rfl⟩ := h
      exact ⟨rfl, rfl⟩

theorem Member.asValidators?_cons_eq_some {m : Member} {members checked : List Member} :
    Member.asValidators? (m :: members) = some checked ↔
      ∃ first rest, m.asValidator? = some first ∧ Member.asValidators? members = some rest
        ∧ first :: rest = checked := by
  rw [Member.asValidators?]
  cases m.asValidator? <;> cases Member.asValidators? members <;> simp

/-- The same keys are declared, and the same may be absent. -/
theorem Member.keys_of_asValidators? {members checked : List Member}
    (h : Member.asValidators? members = some checked) :
    checked.map Member.name = members.map Member.name
      ∧ (checked.filter fun m => !m.isOptional).map Member.name
        = (members.filter fun m => !m.isOptional).map Member.name := by
  induction members generalizing checked with
  | nil =>
      obtain rfl : [] = checked := Option.some.inj h
      exact ⟨rfl, rfl⟩
  | cons m members ih =>
      obtain ⟨first, rest, hfirst, hrest, rfl⟩ := Member.asValidators?_cons_eq_some.1 h
      obtain ⟨hname, hoptional⟩ := Member.key_of_asValidator? hfirst
      obtain ⟨hkeys, hrequired⟩ := ih hrest
      rw [List.map_cons, List.map_cons, hname, hkeys, List.filter_cons, List.filter_cons, hoptional]
      refine ⟨rfl, ?_⟩
      split
      · rw [List.map_cons, List.map_cons, hname, hrequired]
      · exact hrequired

/-! ## §3. Each piece has a translation. -/

mutual

/-- An assertion and its translation leave one rule: a type or values are one
condition on `this`, a map is a type test with the rule of its schema behind it.
-/
theorem Assertion.exists_asValidator (a : Assertion) (ha : a.Meets .translatable) :
    ∃ validator, a.asValidator? = some validator ∧ validator ≠ .anyOf []
      ∧ ∀ document target, Validator.rule ⟨document, some target⟩ validator
        = Assertion.branch document target a := by
  match a with
  | ⟨.plain kind, rule⟩ =>
      obtain ⟨validator, hsome, hrule⟩ := Kind.exists_asValidator ha.1
      exact ⟨validator rule, by rw [Assertion.asValidator?, hsome]; rfl, hrule rule⟩
  | ⟨.oneOf values, rule⟩ =>
      refine ⟨.oneOf values rule, by rw [Assertion.asValidator?], by simp, ?_⟩
      intro document target
      exact checkRule_this (isBlank_jsonList values) (fun _ => rfl) (by rw [Shape.parts]) rule
  | ⟨.mapOf schema, some p⟩ => exact absurd ha.1 (Option.some_ne_none p)
  | ⟨.listOf element, rule⟩ => exact absurd ha.1 not_false
  | ⟨.mapOf schema, none⟩ =>
      obtain ⟨inner, hinner, hrule⟩ := Schema.exists_asValidators schema ha.2
      refine ⟨.map none inner, by rw [Assertion.asValidator?, hinner]; rfl, by simp, ?_⟩
      intro document target
      have hmap : Text.isBlank "map" = false := by decide +kernel
      -- the type test comes first on both sides, the keys of the map behind it
      rw [Validator.rule, checkRule_eq, Condition.resolve_this _ hmap, Assertion.branch,
        Shape.parts, ← hrule target]
      show (Schema.rule target inner >>= _) = _
      cases Schema.rule target inner <;> rfl

/-- The assertions of a field leave the alternatives that their translations do.
-/
theorem Assertion.exists_asValidators (assertions : List Assertion)
    (ha : Assertion.AllMeet .translatable assertions) :
    ∃ validators, Assertion.asValidators? assertions = some validators
      ∧ ∀ document target, Validator.parts ⟨document, some target⟩ validators
        = Assertion.alternatives document target assertions := by
  match assertions with
  | [] => exact ⟨[], by rw [Assertion.asValidators?], fun _ _ => rfl⟩
  | a :: assertions =>
      obtain ⟨validator, hsome, hne, hrule⟩ := Assertion.exists_asValidator a ha.1
      obtain ⟨rest, hrest, hparts⟩ := Assertion.exists_asValidators assertions ha.2
      refine ⟨validator :: rest, by rw [Assertion.asValidators?, hsome, hrest]; rfl, ?_⟩
      intro document target
      have hbranch := hrule document target
      rw [Validator.parts, Assertion.alternatives, hparts, hbranch]
      cases hb : Assertion.branch document target a with
      | error fault => rfl
      | ok branch =>
          -- a validator that checks something leaves a branch that is kept
          have hfull : branch.isEmpty = false :=
            Bool.eq_false_iff.2 fun he => hne ((Validator.isEmpty_iff (hbranch.trans hb)).1 he)
          cases Assertion.alternatives document target assertions with
          | error fault => rfl
          | ok parts =>
              show Except.ok (branch.toFormula :: parts) = .ok (alternative branch ++ parts)
              rw [alternative_of_not_isEmpty hfull]
              rfl

/-- A field and its translation leave one rule. -/
theorem Field.exists_asValidator (f : Field) (hf : f.Meets .translatable) :
    ∃ checked, f.asValidator? = some checked
      ∧ ∀ document, Member.rule document checked = Field.rule document f := by
  match f with
  | ⟨name, optional, assertions⟩ =>
      obtain ⟨validators, hsome, hparts⟩ := Assertion.exists_asValidators assertions hf
      refine ⟨_, by rw [Field.asValidator?, hsome]; rfl, fun document => ?_⟩
      show Validator.rule ⟨document, some (Text.joinPath document name)⟩ (.anyOf validators) = _
      rw [Validator.rule, Field.rule, hparts]

theorem Member.exists_asValidator (m : Member) (hm : m.Meets .translatable) :
    ∃ checked, m.asValidator? = some checked
      ∧ ∀ document, Member.rule document checked = Member.rule document m := by
  match m with
  | .field f => exact Field.exists_asValidator f hm.2
  | .checked name optional validator =>
      obtain ⟨f, hfield⟩ := hm.1
      cases hfield

/-- The members of a schema demand what their translations do, in the same
order. -/
theorem Member.exists_asValidators (members : List Member)
    (hm : Member.AllMeet .translatable members) :
    ∃ checked, Member.asValidators? members = some checked
      ∧ ∀ document, Member.demands document checked = Member.demands document members := by
  match members with
  | [] => exact ⟨[], by rw [Member.asValidators?], fun _ => rfl⟩
  | m :: members =>
      obtain ⟨first, hfirst, hrule⟩ := Member.exists_asValidator m hm.1
      obtain ⟨rest, hrest, hdemands⟩ := Member.exists_asValidators members hm.2
      obtain ⟨hname, hoptional⟩ := Member.key_of_asValidator? hfirst
      refine ⟨first :: rest, Member.asValidators?_cons_eq_some.2 ⟨first, rest, hfirst, hrest, rfl⟩,
        fun document => ?_⟩
      -- whether a key may be absent is kept by the translation
      have hdemand : first.demand document = m.demand document := by
        funext own
        rw [Member.demand, Member.demand, hname, hoptional]
      rw [Member.demands, Member.demands, hrule, hdemands, hdemand]

/-- A schema and its translation leave one rule: the same keys are guarded, and
the same is demanded of their values. -/
theorem Schema.exists_asValidators (s : Schema) (hs : s.Meets .translatable) :
    ∃ checked, s.asValidators? = some checked
      ∧ ∀ document, Schema.rule document checked = Schema.rule document s := by
  match s with
  | ⟨members⟩ =>
      obtain ⟨checked, hsome, hdemands⟩ := Member.exists_asValidators members hs
      obtain ⟨hkeys, hrequired⟩ := Member.keys_of_asValidators? hsome
      refine ⟨⟨checked⟩, by rw [Schema.asValidators?, hsome]; rfl, fun document => ?_⟩
      have hguards : Schema.keyGuards ⟨checked⟩ document = Schema.keyGuards ⟨members⟩ document := by
        unfold Schema.keyGuards Schema.keys Schema.requiredKeys
        rw [hkeys, hrequired]
      rw [Schema.rule, Schema.rule, hdemands, hguards]

end

/-- **A schema of fields and its translation to validators have one rule.**
Where there is a validator for each assertion, the schema can be written with
validators, and for every document this leaves the same rule or the same
fault. -/
theorem Schema.rule_asValidators {s : Schema} (hs : s.Meets .translatable) :
    ∃ checked, s.asValidators? = some checked
      ∧ ∀ document, Schema.rule document checked = Schema.rule document s :=
  Schema.exists_asValidators s hs

/-- That the value is not what another field holds. -/
def Predicate.differsFrom (name : String) : Predicate :=
  .ofCondition ⟨.field .this, .notEqual, .field (.named name)⟩

/-- A number that may be left out or null, a map in which one key takes two
values, and a key of which nothing is known. -/
def Schema.contact : Schema :=
  ⟨[.field ⟨"phone", true, [⟨.plain .string, some (.differsFrom "fax")⟩, ⟨.plain .null, none⟩]⟩,
    .field ⟨"place", false,
      [⟨.mapOf ⟨[.field ⟨"kind", false,
        [⟨.oneOf [.text "home", .integer 1], some (.differsFrom "label")⟩]⟩]⟩, none⟩]⟩,
    .field ⟨"fax", false, []⟩]⟩

/-- The same declared with validators. -/
def Schema.contactChecked : Schema :=
  ⟨[.checked "phone" true (.anyOf [.string (some (.differsFrom "fax")), .nullable none]),
    .checked "place" false (.anyOf [.map none ⟨[.checked "kind" false
      (.anyOf [.oneOf [.text "home", .integer 1] (some (.differsFrom "label"))])]⟩]),
    .checked "fax" false (.anyOf [])]⟩

/-- An optional key of two types, a map with an enumeration inside, and a key
without types. -/
theorem Schema.rule_contactChecked :
    contact.Meets .translatable ∧ contact.asValidators? = some contactChecked
      ∧ ∀ document, Schema.rule document contactChecked = Schema.rule document contact := by
  have hmeets : contact.Meets .translatable := by
    have hstring : Kind.string ∈ [.string, .number, .bool, .timestamp, .path, .list, .null] := by
      decide
    have hnull : Kind.null ∈ [.string, .number, .bool, .timestamp, .path, .list, .null] := by decide
    refine ⟨⟨⟨_, rfl⟩, ⟨hstring, trivial⟩, ⟨hnull, trivial⟩, trivial⟩,
      ⟨⟨_, rfl⟩, ⟨rfl, ?_⟩, trivial⟩, ⟨⟨_, rfl⟩, trivial⟩, trivial⟩
    exact ⟨⟨⟨_, rfl⟩, ⟨trivial, trivial⟩, trivial⟩, trivial⟩
  have hsome : contact.asValidators? = some contactChecked := rfl
  obtain ⟨checked, hchecked, hrule⟩ := Schema.rule_asValidators hmeets
  obtain rfl : contactChecked = checked := Option.some.inj (hsome.symm.trans hchecked)
  exact ⟨hmeets, hsome, hrule⟩

end SecurityRules
