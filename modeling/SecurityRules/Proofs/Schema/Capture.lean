/-
  SecurityRules.Proofs.Schema.Capture
  ────────────────────────────────
  **WHICH REFERENCES A QUANTIFIER CAPTURES.**

  The check of an element names fields of the document around its list.  The path
  of this document may itself start with the name of an element: that of a list
  further out, in whose elements the document lies.  Names of elements come from
  the last segments of paths, so the two names may be the same, and then the
  inner quantifier captures the reference.

    * `Schema.any_captures` — whether a quantifier captures can be told from the
      names of the fields;
    * `elementName_ne_schemaParameter` — outside the elements of other lists none
      does.

  Main statement: `Field.captures_of_render`.
-/
import SecurityRules.Collection.Guard
import SecurityRules.Proofs.Schema.Quantifier

namespace SecurityRules

open Shorthand SecurityRules.Text

/-! ## §1. Capturing by names. -/

/-- Whether the path of the document starts with the name of an element, so that
a reference to a field of the document is read as one to a field of the
element. -/
def Quantifier.captures (q : Quantifier) : Bool :=
  q.binding == firstName q.document

/-- Every key is a name. -/
def Requirement.named : Requirement where
  member m := isName m.name.toList = true

mutual

/-- Whether a quantifier in a shape captures. The references in it start with
`around`; the path of the value starts with `first`, and its last segment is
`last`. -/
def Shape.captures (around first last : String) : Shape → Bool
  | .plain _ => false
  | .oneOf _ => false
  | .listOf element =>
      !element.isEmpty && itemName last == around
        || Assertion.anyCaptures around (itemName last) (itemName last) element
  | .mapOf schema => Schema.captures first schema

def Assertion.captures (around first last : String) : Assertion → Bool
  | ⟨shape, _⟩ => Shape.captures around first last shape

def Assertion.anyCaptures (around first last : String) : List Assertion → Bool
  | [] => false
  | a :: assertions =>
      Assertion.captures around first last a || Assertion.anyCaptures around first last assertions

/-- Whether a quantifier in a field captures, where references to the document of
the field start with `around`. -/
def Field.captures (around : String) : Field → Bool
  | ⟨name, _, assertions⟩ => Assertion.anyCaptures around around name assertions

def Validator.captures (first : String) : Validator → Bool
  | .check _ _ => false
  | .oneOf _ _ => false
  | .map _ schema => Schema.captures first schema
  | .anyOf validators => Validator.anyCaptures first validators

def Validator.anyCaptures (first : String) : List Validator → Bool
  | [] => false
  | v :: validators => Validator.captures first v || Validator.anyCaptures first validators

def Member.captures (around : String) : Member → Bool
  | .field f => Field.captures around f
  | .checked _ _ validator => Validator.captures around validator

def Member.anyCaptures (around : String) : List Member → Bool
  | [] => false
  | m :: members => Member.captures around m || Member.anyCaptures around members

/-- Whether a quantifier in a schema captures, where references to its document
start with `around`. -/
def Schema.captures (around : String) : Schema → Bool
  | ⟨members⟩ => Member.anyCaptures around members

end

mutual

/-- **A shape captures by names where one of its quantifiers captures.** The
quantifier of a list stands between the document and what is inside it; a map is
a document of its own. -/
theorem Shape.any_captures {document target first last : String} (hdocument : document ≠ "")
    (htarget : Located target first last) {shape : Shape} (h : shape.Meets .named) :
    (shape.quantifiers document target).any Quantifier.captures
      = shape.captures (firstName document) first last := by
  match shape with
  | .plain _ => rfl
  | .oneOf _ => rfl
  | .listOf element =>
      have hitem := htarget.elementName_eq
      have hnested := Assertion.any_allCaptures hdocument
        (located_of_isName (isName_itemName htarget.isName)) h
      rw [Shape.quantifiers, Shape.captures, List.any_append, hitem, hnested]
      congr 1
      cases element with
      | nil => rfl
      | cons a element =>
          show (_ == _ || false) = (true && _)
          rw [Quantifier.binding, hitem, Bool.or_false, Bool.true_and]
  | .mapOf schema =>
      rw [Shape.quantifiers, Shape.captures, ← htarget.first]
      exact Schema.any_captures htarget.ne_empty h

/-- Assertions capture where one of them does. -/
theorem Assertion.any_allCaptures {document target first last : String}
    (hdocument : document ≠ "") (htarget : Located target first last)
    {assertions : List Assertion} (h : Assertion.AllMeet .named assertions) :
    (Assertion.allQuantifiers document target assertions).any Quantifier.captures
      = Assertion.anyCaptures (firstName document) first last assertions := by
  match assertions with
  | [] => rfl
  | ⟨shape, rule⟩ :: assertions =>
      rw [Assertion.allQuantifiers, Assertion.anyCaptures, List.any_append, Assertion.quantifiers,
        Assertion.captures, Shape.any_captures hdocument htarget h.1.2,
        Assertion.any_allCaptures hdocument htarget h.2]

/-- A field stands at its key, whose segment is the name itself. -/
theorem Field.any_captures {document : String} (hdocument : document ≠ "") {f : Field}
    (hname : isName f.name.toList = true) (h : f.Meets .named) :
    (f.quantifiers document).any Quantifier.captures = f.captures (firstName document) := by
  match f with
  | ⟨name, optional, assertions⟩ =>
      rw [Field.quantifiers, Field.captures]
      exact Assertion.any_allCaptures hdocument (located_joinPath hdocument hname) h

/-- A validator captures where the schema of a map in it does. -/
theorem Validator.any_captures {target : String} (htarget : target ≠ "") {validator : Validator}
    (h : validator.Meets .named) :
    (validator.quantifiers target).any Quantifier.captures
      = validator.captures (firstName target) := by
  match validator with
  | .check _ _ => rfl
  | .oneOf _ _ => rfl
  | .map _ schema => exact Schema.any_captures htarget h.2
  | .anyOf validators => exact Validator.any_allCaptures htarget h.2

theorem Validator.any_allCaptures {target : String} (htarget : target ≠ "")
    {validators : List Validator} (h : Validator.AllMeet .named validators) :
    (Validator.allQuantifiers target validators).any Quantifier.captures
      = Validator.anyCaptures (firstName target) validators := by
  match validators with
  | [] => rfl
  | v :: validators =>
      rw [Validator.allQuantifiers, Validator.anyCaptures, List.any_append,
        Validator.any_captures htarget h.1, Validator.any_allCaptures htarget h.2]

theorem Member.any_captures {document : String} (hdocument : document ≠ "") {m : Member}
    (h : m.Meets .named) :
    (m.quantifiers document).any Quantifier.captures = m.captures (firstName document) := by
  match m with
  | .field f => exact Field.any_captures hdocument h.1 h.2
  | .checked name _ validator =>
      have hplace := located_joinPath hdocument h.1
      rw [Member.quantifiers, Member.captures, ← hplace.first]
      exact Validator.any_captures hplace.ne_empty h.2

/-- Members capture where one of them does. -/
theorem Member.any_allCaptures {document : String} (hdocument : document ≠ "")
    {members : List Member} (h : Member.AllMeet .named members) :
    (Member.allQuantifiers document members).any Quantifier.captures
      = Member.anyCaptures (firstName document) members := by
  match members with
  | [] => rfl
  | m :: members =>
      rw [Member.allQuantifiers, Member.anyCaptures, List.any_append,
        Member.any_captures hdocument h.1, Member.any_allCaptures hdocument h.2]

/-- **Whether a quantifier captures can be told from the names.** -/
theorem Schema.any_captures {document : String} (hdocument : document ≠ "") {schema : Schema}
    (h : schema.Meets .named) :
    (schema.quantifiers document).any Quantifier.captures
      = schema.captures (firstName document) := by
  match schema with
  | ⟨members⟩ => exact Member.any_allCaptures hdocument h

end

/-! ## §2. Captured references. -/

/-- The name of an element is never the parameter of the function that checks
the schema. -/
theorem itemName_ne_schemaParameter (name : String) : itemName name ≠ schemaParameter := by
  intro h
  have hlength := congrArg String.length h
  have hitem : "_item".length = 5 := rfl
  have hdata : schemaParameter.length = 4 := rfl
  rw [itemName, String.length_append, hitem, hdata] at hlength
  omega

/-- No element is called like the parameter of the function that checks a
schema. -/
theorem elementName_ne_schemaParameter (list : String) : elementName list ≠ schemaParameter := by
  unfold elementName
  cases (lastSegment list.toList).filter isNameChar with
  | nil => decide
  | cons c ident =>
      show (if c.isDigit then itemName _ else itemName _) ≠ _
      split
      · exact itemName_ne_schemaParameter _
      · exact itemName_ne_schemaParameter _

/-- **Which quantifiers capture.** All the quantifiers of a field are in its text.
The check of an element names the fields of the document around the list; these
references are read as fields of the element where the path of the document
starts with the name of the element. Not so where it starts with the parameter of
the function that checks a schema; but it may happen in elements of another list,
and the names of the fields tell whether it does. -/
theorem Field.captures_of_render {f : Field} (hname : isName f.name.toList = true)
    (hnamed : f.Meets .named) (hvalued : f.Meets .valued) {document : String}
    (hdocument : document ≠ "") {rule : Rule} (hrule : f.rule document = .ok rule) {text : String}
    (htext : rule.render = .ok text) :
    (∀ q ∈ f.quantifiers document,
      (∃ expression, q.Reads expression ∧ expression.toList <:+: text.toList)
        ∧ (∀ name, name ≠ "" → ∃ expression,
          Reference.resolve q.scope (.named name) = .ok expression
            ∧ (firstName expression = q.binding ↔ q.captures = true))
        ∧ (firstName q.document = schemaParameter → q.captures = false))
      ∧ (f.quantifiers document).any Quantifier.captures = f.captures (firstName document) := by
  refine ⟨fun q hq => ?_, Field.any_captures hdocument hname hnamed⟩
  refine ⟨Field.infix_of_mem_quantifiers hvalued hdocument hrule htext hq,
    fun name hfield => ?_, fun hdata => ?_⟩
  · have hpath := (Field.shows_of_mem hdocument hvalued hq hrule).1
    refine ⟨joinPath q.document name, if_neg hfield, ?_⟩
    rw [firstName_joinPath hpath, Quantifier.captures, beq_iff_eq, eq_comm]
  · rw [Quantifier.captures, hdata]
    exact beq_eq_false_iff_ne.2 (elementName_ne_schemaParameter q.list)

/-! ## §3. Lists of strings in lists of maps. -/

/-- A string that is not the owner's. -/
def Predicate.notByOwner : Predicate :=
  .ofCondition ⟨.field .this, .notEqual, .field (.named "owner")⟩

/-- A field that holds maps in a list. Such a map has an owner, and under `key` a
list of strings, none of which is to be the owner's. -/
def Field.listOfMaps (name key : String) : Field :=
  let strings : Field := ⟨key, false, [⟨.listOf [⟨.plain .string, some .notByOwner⟩], none⟩]⟩
  let owner : Field := ⟨"owner", false, [⟨.plain .string, none⟩]⟩
  ⟨name, false, [⟨.listOf [⟨.mapOf ⟨[.field strings, .field owner]⟩, none⟩], none⟩]⟩

namespace Field

theorem named_listOfMaps {key : String} (h : isName key.toList = true) (name : String) :
    (listOfMaps name key).Meets .named := by
  have howner : isName "owner".toList = true := by decide
  simpa [listOfMaps, Meets, Assertion.AllMeet, Assertion.Meets, Shape.Meets, Schema.Meets,
    Member.AllMeet, Member.Meets, Requirement.named, Member.name, h] using howner

theorem valued_listOfMaps (name key : String) : (listOfMaps name key).Meets .valued := by
  simp [listOfMaps, Meets, Assertion.AllMeet, Assertion.Meets, Shape.Meets, Schema.Meets,
    Member.AllMeet, Member.Meets, Requirement.valued]

/-- Whatever the keys are called, the field has a rule with a text. -/
theorem exists_render_listOfMaps (name key document : String) :
    ∃ rule text, (listOfMaps name key).rule document = .ok rule ∧ rule.render = .ok text := by
  have howner : Predicate.Printable .notByOwner :=
    .node (Nat.le_refl 1) (List.forall_mem_singleton.2 (.leaf ⟨trivial, by decide⟩))
  refine exists_render (valued_listOfMaps name key) ?_ (List.cons_ne_nil _ _) document
  simp [listOfMaps, Meets, Assertion.AllMeet, Assertion.Meets, Shape.Meets, Schema.Meets,
    Member.AllMeet, Member.Meets, Requirement.buildable, ExtraPrintable, howner]

/-- **The references to the owner are captured exactly if both lists have the same
name.** -/
theorem captures_listOfMaps (name key : String) :
    (listOfMaps name key).captures schemaParameter = (key == name) := by
  have houter : (itemName name == schemaParameter) = false :=
    beq_eq_false_iff_ne.2 (itemName_ne_schemaParameter name)
  have hinner : (itemName key == itemName name) = (key == name) := by
    rw [Bool.eq_iff_iff, beq_iff_eq, beq_iff_eq, itemName, itemName, String.append_left_inj]
  simp [listOfMaps, captures, Assertion.anyCaptures, Assertion.captures, Shape.captures,
    Schema.captures, Member.anyCaptures, Member.captures, houter, hinner]

/-- In a list under another name the owner is that of the map. -/
theorem captures_orders :
    ∃ rule text, (listOfMaps "orders" "tags").rule "data" = .ok rule ∧ rule.render = .ok text
      ∧ ((listOfMaps "orders" "tags").quantifiers "data").map Quantifier.binding
        = ["orders_item", "tags_item"]
      ∧ ((listOfMaps "orders" "tags").quantifiers "data").any Quantifier.captures = false
      ∧ ∀ q ∈ (listOfMaps "orders" "tags").quantifiers "data",
        ∃ expression, q.Reads expression ∧ expression.toList <:+: text.toList := by
  obtain ⟨rule, text, hrule, htext⟩ := exists_render_listOfMaps "orders" "tags" "data"
  obtain ⟨hquantifiers, hcaptures⟩ := captures_of_render (by decide)
    (named_listOfMaps (by decide) "orders") (valued_listOfMaps "orders" "tags")
    (by decide : "data" ≠ "") hrule htext
  refine ⟨rule, text, hrule, htext, by decide +kernel, ?_, fun q hq => (hquantifiers q hq).1⟩
  have hdata : firstName "data" = schemaParameter := by decide +kernel
  rw [hcaptures, hdata, captures_listOfMaps]
  decide

/-- Where both lists have the same name, the owner of the map is sought in the
string. -/
theorem captures_tags :
    isName "tags".toList = true ∧ (listOfMaps "tags" "tags").Meets .named
      ∧ ∃ rule text, (listOfMaps "tags" "tags").rule "data" = .ok rule ∧ rule.render = .ok text
      ∧ ("tags_item.tags.all(tags_item, "
        ++ "(tags_item is string && tags_item != tags_item.owner))").toList <:+: text.toList
      ∧ ∃ q ∈ (listOfMaps "tags" "tags").quantifiers "data", q.list = "tags_item.tags"
        ∧ q.document = "tags_item" ∧ q.binding = firstName q.document := by
  refine ⟨by decide, named_listOfMaps (by decide) "tags", ?_⟩
  obtain ⟨rule, text, hrule, htext⟩ := exists_render_listOfMaps "tags" "tags" "data"
  have hbinding : elementName "tags_item.tags" = "tags_item" := by decide +kernel
  have hlist : joinPath (elementName (joinPath "data" "tags")) "tags" = "tags_item.tags" := by
    decide +kernel
  have hitem : elementName (joinPath "data" "tags") = "tags_item" := by decide +kernel
  let inner : Quantifier := ⟨"tags_item.tags", "tags_item", [⟨.plain .string, some .notByOwner⟩]⟩
  have hmem : inner ∈ (listOfMaps "tags" "tags").quantifiers "data" := by
    refine List.mem_cons_of_mem _ ?_
    show inner ∈ [(⟨joinPath (elementName (joinPath "data" "tags")) "tags",
      elementName (joinPath "data" "tags"), _⟩ : Quantifier)]
    rw [hlist, hitem]
    exact List.mem_singleton_self _
  have hreads : inner.Reads ("tags_item.tags.all(tags_item, "
      ++ "(tags_item is string && tags_item != tags_item.owner))") := by
    unfold Quantifier.Reads Quantifier.binding
    rw [hbinding]
    exact ⟨_, "(tags_item is string && tags_item != tags_item.owner)", rfl,
      Except.eq_ok_of_toOption (by decide +kernel), by decide +kernel⟩
  obtain ⟨expression, hother, hin⟩ := infix_of_mem_quantifiers (valued_listOfMaps "tags" "tags")
    (by decide) hrule htext hmem
  rw [hother.unique hreads] at hin
  exact ⟨rule, text, hrule, htext, hin, inner, hmem, rfl, rfl, by decide +kernel⟩

end Field

end SecurityRules
