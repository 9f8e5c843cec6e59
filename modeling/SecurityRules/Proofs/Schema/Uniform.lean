/-
  SecurityRules.Proofs.Schema.Uniform
  ────────────────────────────────
  **A SCHEMA DEMANDS THE SAME WHEREVER IT IS MOUNTED.**

  The path of the document is put into the rule of a schema and decides nothing
  else: neither whether there is a rule, nor its tree, nor what the elements of a
  list are called.  A list further in is the reason to prove this with care.  The
  name of its elements is read off a path that was put together before, and its
  check is rendered while the rule is still being built.

    * `Slot` — a place at which the elements of a list would have one name;
    * `Schema.uniform_rule` — the rule is uniform, along the pieces of a schema;
    * `Schema.uniform_bindings` — so are the names of elements.

  Main statement: `Schema.exists_template`.
-/
import SecurityRules.Proofs.Schema.Quantifier
import SecurityRules.Proofs.Schema.Template

namespace SecurityRules

open SecurityRules.Text

/-! ## §1. Places. -/

/-- A site at which the elements of a list have one name, whatever the path is. -/
structure Slot (place : String → String) : Prop extends Site place where
  binding : ∃ name, ∀ path, path ≠ "" → elementName (place path) = name

/-- A path that is put in is itself a site. -/
theorem site_path : Site fun path => path :=
  ⟨uniform_path, fun _ hpath => hpath⟩

section Places

variable {document target : String → String}

/-- The name of an element below a key comes from the key alone. -/
theorem Site.slot_joinPath (h : Site document) (name : String) :
    Slot fun path => joinPath (document path) name where
  uniform := h.uniform_joinPath name
  ne_empty path hpath := joinPath_ne_empty (h.ne_empty path hpath) name
  binding := by
    refine ⟨elementName name, fun path hpath => ?_⟩
    have hsegment : lastSegment (joinPath (document path) name).toList
        = lastSegment name.toList := by
      rw [joinPath_of_ne (h.ne_empty path hpath), String.append_assoc, String.toList_append,
        String.toList_append]
      exact lastSegment_append_dot _ _
    rw [elementName, hsegment]
    rfl

/-- The name of an element is the same text for every path. -/
theorem Slot.uniform_elementName (h : Slot target) :
    Uniform Template.fill fun path => elementName (target path) := by
  obtain ⟨name, hname⟩ := h.binding
  exact (uniform_text name).congr hname

/-- The element of a list is itself such a place. -/
theorem Slot.element (h : Slot target) : Slot fun path => elementName (target path) where
  uniform := h.uniform_elementName
  ne_empty path _ := ne_empty_of_isPath (isPlace_elementName (target path)).path
  binding := by
    obtain ⟨name, hname⟩ := h.binding
    exact ⟨elementName name, fun path hpath => congrArg elementName (hname path hpath)⟩

/-! ## §2. Parts that do not nest. -/

/-- The test of a shape names the place and nothing else of the path. -/
theorem uniform_test (htarget : Site target) (restricted : Bool) (shape : Shape) :
    Uniform fillParts fun path => Shape.test (target path) restricted shape := by
  have happly : ∀ (op : Operator) (text : String),
      Uniform fillParts fun path => [.text (op.apply (target path) text)] := fun op text =>
    (op.uniform_apply htarget.uniform (uniform_text text)).leaf fun _ => op.isBlank_apply _ _
  cases shape with
  | oneOf values => exact happly .memberOf (Value.jsonList values)
  | listOf element => exact happly .ofType "list"
  | mapOf schema => exact happly .ofType "map"
  | plain kind =>
      cases kind with
      | null => exact happly .equal "null"
      | any =>
          cases restricted with
          | true => exact uniform_nil
          | false => exact (uniform_text "true").leaf fun _ => by decide +kernel
      | oneOf => exact uniform_nil
      | string | int | float | number | bool | timestamp | duration | latlng | path | list | map =>
          exact happly .ofType _

/-- A predicate besides is resolved at the path, and uniform with it. -/
theorem uniform_extraParts (hdocument : Site document) (howner : Uniform Template.fill target)
    (rule : Option Predicate) :
    UniformResult fillParts fun path => extraParts ⟨document path, some (target path)⟩ rule := by
  cases rule with
  | none => exact .ok uniform_nil
  | some p => exact (p.uniform_resolve hdocument howner).map fun own => (uniform_fill own).part

/-- A condition and the predicate besides are resolved together. -/
theorem uniform_checkRule (hdocument : Site document) (howner : Uniform Template.fill target)
    (condition : Condition) (rule : Option Predicate) :
    UniformResult fillRule fun path =>
      checkRule ⟨document path, some (target path)⟩ condition rule :=
  Predicate.uniform_resolve hdocument howner _

theorem uniform_keysOf (hdocument : Site document) :
    Uniform Template.fill fun path => keysOf (document path) :=
  hdocument.uniform_joinPath "keys()"

/-- The guards of the keys start with the path of the document. -/
theorem Schema.uniform_keyGuards (hdocument : Site document) (s : Schema) :
    Uniform fillRule fun path => s.keyGuards (document path) := by
  have hcall : ∀ call arguments : String, Text.isBlank call = false → Uniform fillParts
      fun path => [.text (keysOf (document path) ++ call ++ arguments ++ ")")] := by
    intro call arguments hspoken
    have htext := (((uniform_keysOf hdocument).append (uniform_text call)).append
      (uniform_text arguments)).append (uniform_text ")")
    exact htext.leaf fun _ => isBlank_keysCall hspoken
  have hall := hcall ".hasAll(" (jsonStrings s.requiredKeys) (by decide +kernel)
  have honly := hcall ".hasOnly(" (jsonStrings s.keys) (by decide +kernel)
  exact (hall.append_parts honly).rule .all

theorem uniform_absent (hdocument : Site document) (name : String) :
    Uniform fillParts fun path => [.text (absent (document path) name)] := by
  have htext := ((((uniform_text "!").append (uniform_keysOf hdocument)).append
    (uniform_text ".hasAny(")).append (uniform_text (jsonStrings [name]))).append (uniform_text ")")
  exact htext.leaf fun path => isBlank_absent (document path) name

/-- Whether anything is demanded does not depend on the path. -/
theorem isEmpty_fillRule (path : String) (own : Junction Expression) :
    (fillRule path own).isEmpty = own.isEmpty :=
  List.isEmpty_map

/-- Whether an assertion is left out is seen at its tree, and so for every path
alike. -/
theorem uniform_alternative (own : Junction Expression) :
    Uniform fillParts fun path => alternative (fillRule path own) := by
  cases hempty : own.isEmpty with
  | true =>
      refine uniform_nil.congr fun path _ => ?_
      rw [alternative, isEmpty_fillRule, hempty]
      rfl
  | false =>
      refine (uniform_fill own).part.congr fun path _ => ?_
      rw [alternative, isEmpty_fillRule, hempty]
      rfl

/-- So is whether a member is; its guard starts with the path. -/
theorem Member.uniform_demand (hdocument : Site document) (m : Member) (own : Junction Expression) :
    Uniform fillParts fun path => m.demand (document path) (fillRule path own) := by
  have hown : Uniform fillParts fun path => [(fillRule path own).toFormula] :=
    (uniform_fill own).part
  cases hempty : own.isEmpty with
  | true =>
      refine uniform_nil.congr fun path _ => ?_
      rw [demand, isEmpty_fillRule, hempty]
      rfl
  | false =>
      cases hoptional : m.isOptional with
      | true =>
          have hchoice := ((uniform_absent hdocument m.name).append_parts hown).rule .any
          refine hchoice.part.congr fun path _ => ?_
          rw [demand, isEmpty_fillRule, hempty, hoptional]
          rfl
      | false =>
          refine hown.congr fun path _ => ?_
          rw [demand, isEmpty_fillRule, hempty, hoptional]
          rfl

/-- The check of the elements is rendered to a template. -/
theorem uniform_elementParts (htarget : Slot target) (alternatives : List (Formula Expression)) :
    UniformResult fillParts fun path =>
      elementParts (target path) (fillParts path alternatives) := by
  cases alternatives with
  | nil => exact .ok uniform_nil
  | cons first rest =>
      have hcheck := Rule.uniform_render ⟨.any, first :: rest⟩
      refine hcheck.map fun check => ?_
      have htext := ((((htarget.uniform.append (uniform_text ".all(")).append
        htarget.uniform_elementName).append (uniform_text ", ")).append
          (uniform_fill check)).append (uniform_text ")")
      exact htext.leaf fun path => isBlank_forEachElement _ _ _

end Places

/-! ## §3. Rules. -/

mutual

/-- **What a shape demands is uniform.** For a list the check of the elements is
rendered at the name of the element, which is the same for every path; for a map
the schema is mounted at the place of the value. -/
theorem Shape.uniform_parts {document target : String → String}
    (hdocument : Site document) (htarget : Slot target) (shape : Shape) :
    UniformResult fillParts fun path => Shape.parts (document path) (target path) shape := by
  match shape with
  | .plain _ => exact .ok uniform_nil
  | .oneOf _ => exact .ok uniform_nil
  | .listOf element =>
      unfold Shape.parts
      exact (Assertion.uniform_alternatives hdocument htarget.element element).bind
        (uniform_elementParts htarget)
  | .mapOf schema =>
      unfold Shape.parts
      refine (Schema.uniform_rule htarget.toSite schema).bind fun own => ?_
      exact UniformResult.ok (uniform_fill own).part

/-- The branch of an assertion joins a test, the demands of a shape and a
predicate, which are all uniform. -/
theorem Assertion.uniform_branch {document target : String → String}
    (hdocument : Site document) (htarget : Slot target) (a : Assertion) :
    UniformResult fillRule fun path => Assertion.branch (document path) (target path) a := by
  match a with
  | ⟨shape, rule⟩ =>
      unfold Assertion.branch
      refine (Shape.uniform_parts hdocument htarget shape).bind fun further => ?_
      refine (uniform_extraParts hdocument htarget.uniform rule).bind fun extra => ?_
      have htest := uniform_test htarget.toSite rule.isSome shape
      exact .ok (((htest.append_parts (uniform_fill further)).append_parts
        (uniform_fill extra)).rule .all)

/-- One branch after the other: the first fault is the same for every path. -/
theorem Assertion.uniform_alternatives {document target : String → String}
    (hdocument : Site document) (htarget : Slot target) (assertions : List Assertion) :
    UniformResult fillParts fun path =>
      Assertion.alternatives (document path) (target path) assertions := by
  match assertions with
  | [] => exact .ok uniform_nil
  | a :: assertions =>
      unfold Assertion.alternatives
      refine (Assertion.uniform_branch hdocument htarget a).bind fun branch => ?_
      refine (Assertion.uniform_alternatives hdocument htarget assertions).bind fun rest => ?_
      exact .ok ((uniform_alternative branch).append_parts (uniform_fill rest))

/-- A field stands below the document, at its key. -/
theorem Field.uniform_rule {document : String → String} (hdocument : Site document) (f : Field) :
    UniformResult fillRule fun path => Field.rule (document path) f := by
  match f with
  | ⟨name, _, assertions⟩ =>
      unfold Field.rule
      exact (Assertion.uniform_alternatives hdocument (hdocument.slot_joinPath name)
        assertions).bind fun parts => .ok ((uniform_fill parts).rule .any)

/-- **The rule of a validator is uniform.** Only a map goes deeper, into a
schema that is mounted at the place of the value. -/
theorem Validator.uniform_rule {document target : String → String}
    (hdocument : Site document) (htarget : Slot target) (v : Validator) :
    UniformResult fillRule fun path => Validator.rule ⟨document path, some (target path)⟩ v := by
  match v with
  | .check condition rule => exact uniform_checkRule hdocument htarget.uniform condition rule
  | .oneOf values rule => exact uniform_checkRule hdocument htarget.uniform _ rule
  | .map rule schema =>
      unfold Validator.rule
      refine (uniform_checkRule hdocument htarget.uniform _ rule).bind fun own => ?_
      refine (Schema.uniform_rule htarget.toSite schema).bind fun inner => ?_
      have hparts : Uniform fillParts fun path => fillParts path own.parts := uniform_fill _
      exact UniformResult.ok
        ((hparts.append_parts (uniform_fill inner).part).rule own.connective)
  | .anyOf validators =>
      unfold Validator.rule
      exact (Validator.uniform_parts hdocument htarget validators).bind fun parts =>
        .ok ((uniform_fill parts).rule .any)

/-- The parts of a choice, one after the other. -/
theorem Validator.uniform_parts {document target : String → String}
    (hdocument : Site document) (htarget : Slot target) (validators : List Validator) :
    UniformResult fillParts fun path =>
      Validator.parts ⟨document path, some (target path)⟩ validators := by
  match validators with
  | [] => exact .ok uniform_nil
  | v :: validators =>
      unfold Validator.parts
      refine (Validator.uniform_rule hdocument htarget v).bind fun own => ?_
      refine (Validator.uniform_parts hdocument htarget validators).bind fun rest => ?_
      exact .ok ((uniform_fill own).part.append_parts (uniform_fill rest))

theorem Member.uniform_rule {document : String → String} (hdocument : Site document) (m : Member) :
    UniformResult fillRule fun path => Member.rule (document path) m := by
  match m with
  | .field f => exact Field.uniform_rule hdocument f
  | .checked name _ validator =>
      exact Validator.uniform_rule hdocument (hdocument.slot_joinPath name) validator

/-- The demands of the members, one after the other; which of them are left out
is the same for every path. -/
theorem Member.uniform_demands {document : String → String}
    (hdocument : Site document) (members : List Member) :
    UniformResult fillParts fun path => Member.demands (document path) members := by
  match members with
  | [] => exact .ok uniform_nil
  | m :: members =>
      unfold Member.demands
      refine (Member.uniform_rule hdocument m).bind fun own => ?_
      refine (Member.uniform_demands hdocument members).bind fun rest => ?_
      exact .ok ((m.uniform_demand hdocument own).append_parts (uniform_fill rest))

/-- **The rule of a schema is uniform** in the path of its document. -/
theorem Schema.uniform_rule {document : String → String} (hdocument : Site document) (s : Schema) :
    UniformResult fillRule fun path => Schema.rule (document path) s := by
  match s with
  | ⟨members⟩ =>
      unfold Schema.rule
      refine (Member.uniform_demands hdocument members).bind fun demands => ?_
      have hguards := Schema.uniform_keyGuards hdocument ⟨members⟩
      exact .ok ((hguards.part.append_parts (uniform_fill demands)).rule .all)

end

/-! ## §4. Names of elements. -/

/-- Whether the names of elements are the same whatever the path is. -/
def UniformBindings (quantifiers : String → List Quantifier) : Prop :=
  Uniform (fun _ names => names) fun path => (quantifiers path).map Quantifier.binding

theorem uniformBindings_nil : UniformBindings fun _ => [] :=
  ⟨[], fun _ _ => rfl⟩

/-- The names in two lists of quantifiers, one behind the other. -/
theorem UniformBindings.append {f g : String → List Quantifier} (hf : UniformBindings f)
    (hg : UniformBindings g) : UniformBindings fun path => f path ++ g path := by
  have hnames : Uniform (fun _ names => names)
      fun path => (f path).map Quantifier.binding ++ (g path).map Quantifier.binding :=
    hf.map₂ hg fun _ _ _ => rfl
  exact hnames.congr fun _ _ => List.map_append

mutual

/-- **The names that a shape gives to elements** are the same for every path: a
list gives the name of its slot, and what is inside it stands at that name. -/
theorem Shape.uniform_bindings {document target : String → String}
    (htarget : Slot target) (shape : Shape) :
    UniformBindings fun path => Shape.quantifiers (document path) (target path) shape := by
  match shape with
  | .plain _ => exact uniformBindings_nil
  | .oneOf _ => exact uniformBindings_nil
  | .listOf element =>
      unfold Shape.quantifiers
      refine UniformBindings.append ?_ (Assertion.uniform_bindings_all htarget.element element)
      cases element with
      | nil => exact uniformBindings_nil
      | cons a element =>
          obtain ⟨name, hname⟩ := htarget.binding
          exact ⟨[name], fun path hpath => congrArg (fun n => [n]) (hname path hpath)⟩
  | .mapOf schema => exact Schema.uniform_bindings htarget.toSite schema

theorem Assertion.uniform_bindings_all {document target : String → String}
    (htarget : Slot target) (assertions : List Assertion) :
    UniformBindings fun path =>
      Assertion.allQuantifiers (document path) (target path) assertions := by
  match assertions with
  | [] => exact uniformBindings_nil
  | ⟨shape, _⟩ :: assertions =>
      exact (Shape.uniform_bindings htarget shape).append
        (Assertion.uniform_bindings_all htarget assertions)

/-- A validator names elements where it mounts a schema. -/
theorem Validator.uniform_bindings {target : String → String}
    (htarget : Slot target) (v : Validator) :
    UniformBindings fun path => Validator.quantifiers (target path) v := by
  match v with
  | .check _ _ => exact uniformBindings_nil
  | .oneOf _ _ => exact uniformBindings_nil
  | .map _ schema => exact Schema.uniform_bindings htarget.toSite schema
  | .anyOf validators => exact Validator.uniform_bindings_all htarget validators

theorem Validator.uniform_bindings_all {target : String → String}
    (htarget : Slot target) (validators : List Validator) :
    UniformBindings fun path => Validator.allQuantifiers (target path) validators := by
  match validators with
  | [] => exact uniformBindings_nil
  | v :: validators =>
      exact (Validator.uniform_bindings htarget v).append
        (Validator.uniform_bindings_all htarget validators)

theorem Member.uniform_bindings {document : String → String}
    (hdocument : Site document) (m : Member) :
    UniformBindings fun path => Member.quantifiers (document path) m := by
  match m with
  | .field ⟨name, _, assertions⟩ =>
      exact Assertion.uniform_bindings_all (hdocument.slot_joinPath name) assertions
  | .checked name _ validator =>
      exact Validator.uniform_bindings (hdocument.slot_joinPath name) validator

theorem Member.uniform_bindings_all {document : String → String}
    (hdocument : Site document) (members : List Member) :
    UniformBindings fun path => Member.allQuantifiers (document path) members := by
  match members with
  | [] => exact uniformBindings_nil
  | m :: members =>
      exact (Member.uniform_bindings hdocument m).append
        (Member.uniform_bindings_all hdocument members)

/-- **The names of elements are uniform** in the path of the document. -/
theorem Schema.uniform_bindings {document : String → String}
    (hdocument : Site document) (s : Schema) :
    UniformBindings fun path => Schema.quantifiers (document path) s := by
  match s with
  | ⟨members⟩ => exact Member.uniform_bindings_all hdocument members

end

/-! ## §5. Mounted schemas. -/

/-- **A schema has one outcome wherever it is mounted**: one fault, or one tree of
templates into which the path of the document is put. The names for the elements
of its lists are the same at every path. -/
theorem Schema.exists_template (s : Schema) :
    (∃ outcome : Except Fault (Junction Template), ∀ path, path ≠ "" →
        Schema.rule path s = outcome.map (Junction.map (Template.fill path)))
      ∧ ∃ names : List String, ∀ path, path ≠ "" →
        (s.quantifiers path).map Quantifier.binding = names := by
  refine ⟨?_, s.uniform_bindings site_path⟩
  obtain ⟨outcome, houtcome⟩ := s.uniform_rule site_path
  refine ⟨outcome.map (Junction.map Expression.template), fun path hpath => ?_⟩
  rw [show Schema.rule path s = _ from houtcome path hpath]
  cases outcome with
  | error fault => rfl
  | ok own =>
      have hmap := Junction.map_map Expression.template (Template.fill path) own
      exact congrArg Except.ok hmap.symm

/-- A list of names, none of which is that of the owner. -/
def Schema.tagged : Schema :=
  ⟨[.field ⟨"tags", true, [⟨.listOf [⟨.plain .string, some ⟨.all,
    [.leaf (.condition ⟨.field .this, .notEqual, .field (.named "owner")⟩)]⟩⟩], none⟩]⟩]⟩

theorem Schema.exists_template_tagged :
    (∃ own : Junction Template,
        Schema.rule "data" tagged = .ok (own.map (Template.fill "data"))
          ∧ Schema.rule "room.data" tagged = .ok (own.map (Template.fill "room.data")))
      ∧ (tagged.quantifiers "data").map Quantifier.binding = ["tags_item"]
      ∧ (tagged.quantifiers "room.data").map Quantifier.binding = ["tags_item"] := by
  obtain ⟨⟨outcome, houtcome⟩, names, hnames⟩ := Schema.exists_template tagged
  have hdata := houtcome "data" (by decide)
  have hroom := houtcome "room.data" (by decide)
  have htags : (tagged.quantifiers "data").map Quantifier.binding = ["tags_item"] := by
    decide +kernel
  refine ⟨?_, htags, ?_⟩
  · cases outcome with
    | error fault => cases (rfl : Schema.rule "data" tagged = .ok _).symm.trans hdata
    | ok own => exact ⟨own, hdata, hroom⟩
  · exact (hnames "room.data" (by decide)).trans ((hnames "data" (by decide)).symm.trans htags)

end SecurityRules
