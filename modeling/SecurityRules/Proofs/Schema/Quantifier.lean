/-
  SecurityRules.Proofs.Schema.Quantifier
  ────────────────────────────────
  **THE QUANTIFIERS IN THE RULE OF A SCHEMA.**

  Every list with elements to be checked leaves a quantifier, which stands as a
  text in a leaf of a rule, or inside the check of a list further out.

    * `Schema.quantifiers` — the quantifiers of a schema, each with the document
      that its check refers to;
    * `Schema.shows_of_mem` — each is in a leaf of the rule;
    * `Field.infix_of_mem_quantifiers` — each is in the text of the rule.
-/
import SecurityRules.Proofs.Schema.Buildable
import SecurityRules.Proofs.Schema.ElementName
import SecurityRules.Proofs.Schema.Expression
import SecurityRules.Proofs.Schema.Meaning

namespace SecurityRules

open Shorthand SecurityRules.Text

/-! ## §1. Quantifiers. -/

/-- A quantifier over the elements of a list. -/
structure Quantifier where
  /-- The path of the list. -/
  list : String
  /-- The document whose fields the check of an element names. -/
  document : String
  /-- What an element may be. -/
  element : List Assertion

namespace Quantifier

/-- The name of an element in its check. -/
def binding (q : Quantifier) : String :=
  elementName q.list

/-- The scope of the predicates about an element. -/
def scope (q : Quantifier) : Scope :=
  ⟨q.document, some q.binding⟩

/-- Whether an expression is the text of the quantifier. -/
def Reads (q : Quantifier) (expression : String) : Prop :=
  ∃ alternatives check,
    Assertion.alternatives q.document q.binding q.element = .ok alternatives
      ∧ Rule.render ⟨.any, alternatives⟩ = .ok check
      ∧ expression = forEachElement q.list q.binding check

/-- A quantifier has one text. -/
theorem Reads.unique {q : Quantifier} {expression other : String} (h : q.Reads expression)
    (hother : q.Reads other) : expression = other := by
  obtain ⟨alternatives, check, halternatives, hcheck, rfl⟩ := h
  obtain ⟨alternatives', check', halternatives', hcheck', rfl⟩ := hother
  obtain rfl := Except.ok.inj (halternatives.symm.trans halternatives')
  rw [Except.ok.inj (hcheck.symm.trans hcheck')]

end Quantifier

mutual

/-- The quantifiers in what a shape demands of the value `target`, which belongs
to the document at `document`. -/
def Shape.quantifiers (document target : String) : Shape → List Quantifier
  | .plain _ => []
  | .oneOf _ => []
  | .listOf element =>
      (if element.isEmpty then [] else [⟨target, document, element⟩])
        ++ Assertion.allQuantifiers document (elementName target) element
  | .mapOf schema => Schema.quantifiers target schema

/-- The quantifiers in what an assertion demands. -/
def Assertion.quantifiers (document target : String) : Assertion → List Quantifier
  | ⟨shape, _⟩ => Shape.quantifiers document target shape

/-- The quantifiers in a choice between assertions. -/
def Assertion.allQuantifiers (document target : String) : List Assertion → List Quantifier
  | [] => []
  | a :: assertions =>
      Assertion.quantifiers document target a ++ Assertion.allQuantifiers document target assertions

/-- The quantifiers in what a field demands. -/
def Field.quantifiers (document : String) : Field → List Quantifier
  | ⟨name, _, assertions⟩ => Assertion.allQuantifiers document (joinPath document name) assertions

/-- The quantifiers in what a validator demands of the value `target`. -/
def Validator.quantifiers (target : String) : Validator → List Quantifier
  | .check _ _ => []
  | .oneOf _ _ => []
  | .map _ schema => Schema.quantifiers target schema
  | .anyOf validators => Validator.allQuantifiers target validators

/-- The quantifiers in what some validators demand. -/
def Validator.allQuantifiers (target : String) : List Validator → List Quantifier
  | [] => []
  | v :: validators => Validator.quantifiers target v ++ Validator.allQuantifiers target validators

/-- The quantifiers in what a member demands. -/
def Member.quantifiers (document : String) : Member → List Quantifier
  | .field f => Field.quantifiers document f
  | .checked name _ validator => Validator.quantifiers (joinPath document name) validator

/-- The quantifiers in what some members demand. -/
def Member.allQuantifiers (document : String) : List Member → List Quantifier
  | [] => []
  | m :: members => Member.quantifiers document m ++ Member.allQuantifiers document members

/-- The quantifiers in what a schema demands of the document at a path. -/
def Schema.quantifiers (document : String) : Schema → List Quantifier
  | ⟨members⟩ => Member.allQuantifiers document members

end

/-! ## §2. Quantifiers in a rule. -/

namespace Formula

/-- Whether a quantifier is in a leaf of a rule. -/
def Shows (r : Formula String) (q : Quantifier) : Prop :=
  ∃ expression, q.Reads expression ∧ ∃ leaf ∈ r.leaves, expression.toList <:+: leaf.toList

/-- What a junction shows one of its parts shows. -/
theorem shows_node {c : Connective} {parts : List (Formula String)} {q : Quantifier} :
    (node c parts).Shows q ↔ ∃ part ∈ parts, part.Shows q := by
  unfold Shows
  rw [leaves_node]
  constructor
  · rintro ⟨expression, hreads, leaf, hleaf, hin⟩
    obtain ⟨leaves, hleaves, hmem⟩ := List.mem_flatten.1 hleaf
    obtain ⟨part, hpart, rfl⟩ := List.mem_map.1 hleaves
    exact ⟨part, hpart, expression, hreads, leaf, hmem, hin⟩
  · rintro ⟨part, hpart, expression, hreads, leaf, hmem, hin⟩
    exact ⟨expression, hreads, leaf,
      List.mem_flatten.2 ⟨part.leaves, List.mem_map_of_mem hpart, hmem⟩, hin⟩

end Formula

/-- A text is no blank if part of it is none. -/
theorem isBlank_eq_false_of_isInfix {text expression : String}
    (h : expression.toList <:+: text.toList) (hspoken : Text.isBlank expression = false) :
    Text.isBlank text = false := by
  rw [← Bool.not_eq_true] at hspoken ⊢
  intro hblank
  exact hspoken (List.all_eq_true.2 fun c hc => List.all_eq_true.1 hblank c (h.subset hc))

/-- What a rule shows is in its text. -/
theorem Formula.Shows.infix_of_render {r : Formula String} {q : Quantifier} (h : r.Shows q)
    {text : String} (htext : Formula.render r = .ok (some text)) :
    ∃ expression, q.Reads expression ∧ expression.toList <:+: text.toList := by
  obtain ⟨expression, hreads, leaf, hleaf, hin⟩ := h
  have hspoken : Text.isBlank expression = false := by
    obtain ⟨alternatives, check, -, -, rfl⟩ := hreads
    exact isBlank_forEachElement _ _ _
  have hrest := isBlank_eq_false_of_isInfix hin hspoken
  obtain ⟨own, hown, hleaf'⟩ := Formula.infix_of_render hleaf hrest htext
  cases hown
  exact ⟨expression, hreads, hin.trans hleaf'⟩

variable {q : Quantifier}

/-- What is shown in front or behind is shown by both together. -/
theorem exists_shows_append {front rest : List (Formula String)}
    (h : (∃ part ∈ front, part.Shows q) ∨ ∃ part ∈ rest, part.Shows q) :
    ∃ part ∈ front ++ rest, part.Shows q := by
  rcases h with ⟨part, hpart, hshows⟩ | ⟨part, hpart, hshows⟩
  · exact ⟨part, List.mem_append_left _ hpart, hshows⟩
  · exact ⟨part, List.mem_append_right _ hpart, hshows⟩

/-- A rule that shows something is not left out. -/
theorem Junction.isEmpty_of_shows {own : Rule} (h : ∃ part ∈ own.parts, part.Shows q) :
    own.isEmpty = false := by
  obtain ⟨part, hpart, -⟩ := h
  exact List.isEmpty_eq_false_iff.2 (List.ne_nil_of_mem hpart)

/-- What the own rule of a member shows is also shown where the key of the member
may be absent. -/
theorem Member.shows_demand {m : Member} {document : String} {own : Rule}
    (h : ∃ part ∈ own.parts, part.Shows q) : ∃ part ∈ m.demand document own, part.Shows q := by
  have hown : own.toFormula.Shows q := Formula.shows_node.2 h
  unfold Member.demand
  rw [Junction.isEmpty_of_shows h]
  show ∃ part ∈ (if m.isOptional then _ else _), _
  split
  · exact ⟨_, List.mem_singleton_self _, Formula.shows_node.2
      ⟨own.toFormula, List.mem_cons_of_mem _ List.mem_cons_self, hown⟩⟩
  · exact ⟨own.toFormula, List.mem_singleton_self _, hown⟩

mutual

/-- The parts of a shape show its quantifiers, and the documents of these have a
path. -/
theorem Shape.shows_of_mem {document target : String} (hdocument : document ≠ "")
    (htarget : target ≠ "") {shape : Shape} (hvalued : shape.Meets .valued)
    (hq : q ∈ shape.quantifiers document target) {parts : List (Formula String)}
    (h : Shape.parts document target shape = .ok parts) :
    q.document ≠ "" ∧ ∃ part ∈ parts, part.Shows q := by
  match shape with
  | .plain _ => exact absurd hq List.not_mem_nil
  | .oneOf _ => exact absurd hq List.not_mem_nil
  | .listOf element =>
      obtain ⟨alternatives, halternatives, hparts⟩ := Shape.parts_listOf_eq_ok.1 h
      rw [Shape.quantifiers] at hq
      have helement : element ≠ [] := by
        rintro rfl
        exact absurd hq List.not_mem_nil
      have hne : alternatives ≠ [] :=
        fun hnil => helement ((Assertion.alternatives_eq_nil_iff hvalued halternatives).1 hnil)
      obtain ⟨check, hcheck, rfl⟩ := (elementParts_eq_ok hne).1 hparts
      rw [if_neg (by simpa using helement)] at hq
      rcases List.mem_append.1 hq with hself | hnested
      · -- the quantifier of this list
        obtain rfl := List.mem_singleton.1 hself
        exact ⟨hdocument, _, List.mem_singleton_self _, _,
          ⟨alternatives, check, halternatives, hcheck, rfl⟩, _, List.mem_singleton_self _,
          List.infix_refl _⟩
      · -- a quantifier further in, which is in the check
        have hbinding := ne_empty_of_isPath (isPlace_elementName target).path
        obtain ⟨hpath, hshows⟩ := Assertion.shows_of_mem_all hdocument hbinding hvalued hnested
          halternatives
        obtain ⟨expression, hreads, hin⟩ := (Formula.shows_node.2 hshows).infix_of_render
          (Rule.render_eq_ok.1 hcheck)
        refine ⟨hpath, _, List.mem_singleton_self _, expression, hreads, _,
          List.mem_singleton_self _, hin.trans ?_⟩
        unfold forEachElement
        rw [String.toList_append, String.toList_append]
        exact List.infix_append _ _ _
  | .mapOf schema =>
      obtain ⟨rule, hrule, rfl⟩ := Shape.parts_mapOf_eq_ok.1 h
      obtain ⟨hpath, hshows⟩ := Schema.shows_of_mem htarget hvalued hq hrule
      exact ⟨hpath, _, List.mem_singleton_self _, Formula.shows_node.2 hshows⟩

/-- An assertion that is kept shows the quantifiers of its shape. -/
theorem Assertion.shows_of_mem_all {document target : String} (hdocument : document ≠ "")
    (htarget : target ≠ "") {assertions : List Assertion}
    (hvalued : Assertion.AllMeet .valued assertions)
    (hq : q ∈ Assertion.allQuantifiers document target assertions) {parts : List (Formula String)}
    (h : Assertion.alternatives document target assertions = .ok parts) :
    q.document ≠ "" ∧ ∃ part ∈ parts, part.Shows q := by
  match assertions with
  | [] => exact absurd hq List.not_mem_nil
  | ⟨shape, rule⟩ :: assertions =>
      obtain ⟨branch, rest, hbranch, hrest, rfl⟩ := Assertion.alternatives_cons_eq_ok.1 h
      rcases List.mem_append.1 hq with hfirst | hlater
      · obtain ⟨further, extra, hfurther, -, rfl⟩ := Assertion.branch_eq_ok.1 hbranch
        obtain ⟨hpath, hshows⟩ := Shape.shows_of_mem hdocument htarget hvalued.1.2 hfirst hfurther
        have hown : ∃ part ∈ Shape.test target rule.isSome shape ++ further ++ extra,
            part.Shows q :=
          exists_shows_append (.inl (exists_shows_append (.inr hshows)))
        -- a branch that shows a quantifier is not empty, so the field keeps it
        rw [alternative_of_not_isEmpty (Junction.isEmpty_of_shows hown)]
        exact ⟨hpath, exists_shows_append
          (.inl ⟨_, List.mem_singleton_self _, Formula.shows_node.2 hown⟩)⟩
      · obtain ⟨hpath, hshows⟩ :=
          Assertion.shows_of_mem_all hdocument htarget hvalued.2 hlater hrest
        exact ⟨hpath, exists_shows_append (.inr hshows)⟩

/-- A field shows the quantifiers of its assertions. -/
theorem Field.shows_of_mem {document : String} (hdocument : document ≠ "") {f : Field}
    (hvalued : f.Meets .valued) (hq : q ∈ f.quantifiers document) {own : Rule}
    (h : f.rule document = .ok own) : q.document ≠ "" ∧ ∃ part ∈ own.parts, part.Shows q := by
  match f with
  | ⟨name, optional, assertions⟩ =>
      obtain ⟨parts, hparts, rfl⟩ := Field.rule_eq_ok.1 h
      exact Assertion.shows_of_mem_all hdocument (joinPath_ne_empty hdocument name) hvalued hq
        hparts

/-- **The rule of a validator shows its quantifiers**: those in the schema of a
map, and those of the validators in a choice. -/
theorem Validator.shows_of_mem {scope : Scope} {target : String} (htarget : target ≠ "")
    (howner : scope.owner = some target) {validator : Validator}
    (hvalued : validator.Meets .valued) (hq : q ∈ validator.quantifiers target) {own : Rule}
    (h : validator.rule scope = .ok own) : q.document ≠ "" ∧ ∃ part ∈ own.parts, part.Shows q := by
  match validator with
  | .check _ _ => exact absurd hq List.not_mem_nil
  | .oneOf _ _ => exact absurd hq List.not_mem_nil
  | .map _ schema =>
      obtain ⟨place, base, inner, hplace, -, hinner, rfl⟩ := Validator.rule_map_eq_ok.1 h
      obtain rfl := Option.some.inj (hplace.symm.trans howner)
      obtain ⟨hpath, hshows⟩ := Schema.shows_of_mem htarget hvalued.2 hq hinner
      exact ⟨hpath, exists_shows_append
        (.inr ⟨_, List.mem_singleton_self _, Formula.shows_node.2 hshows⟩)⟩
  | .anyOf validators =>
      obtain ⟨parts, hparts, rfl⟩ := Validator.rule_anyOf_eq_ok.1 h
      exact Validator.shows_of_mem_all htarget howner hvalued.2 hq hparts

theorem Validator.shows_of_mem_all {scope : Scope} {target : String} (htarget : target ≠ "")
    (howner : scope.owner = some target) {validators : List Validator}
    (hvalued : Validator.AllMeet .valued validators)
    (hq : q ∈ Validator.allQuantifiers target validators) {parts : List (Formula String)}
    (h : Validator.parts scope validators = .ok parts) :
    q.document ≠ "" ∧ ∃ part ∈ parts, part.Shows q := by
  match validators with
  | [] => exact absurd hq List.not_mem_nil
  | v :: validators =>
      obtain ⟨rule, rest, hrule, hrest, rfl⟩ := Validator.parts_cons_eq_ok.1 h
      rcases List.mem_append.1 hq with hfirst | hlater
      · obtain ⟨hpath, hshows⟩ := Validator.shows_of_mem htarget howner hvalued.1 hfirst hrule
        exact ⟨hpath, _, List.mem_cons_self, Formula.shows_node.2 hshows⟩
      · obtain ⟨hpath, part, hpart, hshows⟩ :=
          Validator.shows_of_mem_all htarget howner hvalued.2 hlater hrest
        exact ⟨hpath, part, List.mem_cons_of_mem _ hpart, hshows⟩

theorem Member.shows_of_mem {document : String} (hdocument : document ≠ "") {m : Member}
    (hvalued : m.Meets .valued) (hq : q ∈ m.quantifiers document) {own : Rule}
    (h : m.rule document = .ok own) : q.document ≠ "" ∧ ∃ part ∈ own.parts, part.Shows q := by
  match m with
  | .field f => exact Field.shows_of_mem hdocument hvalued.2 hq h
  | .checked name _ validator =>
      exact Validator.shows_of_mem (joinPath_ne_empty hdocument name) rfl hvalued.2 hq h

/-- What the members add shows the quantifiers of each of them: a member that
has some is not left out. -/
theorem Member.shows_of_mem_all {document : String} (hdocument : document ≠ "")
    {members : List Member} (hvalued : Member.AllMeet .valued members)
    (hq : q ∈ Member.allQuantifiers document members) {parts : List (Formula String)}
    (h : Member.demands document members = .ok parts) :
    q.document ≠ "" ∧ ∃ part ∈ parts, part.Shows q := by
  match members with
  | [] => exact absurd hq List.not_mem_nil
  | m :: members =>
      obtain ⟨own, rest, hown, hrest, rfl⟩ := Member.demands_cons_eq_ok.1 h
      rcases List.mem_append.1 hq with hfirst | hlater
      · obtain ⟨hpath, hshows⟩ := Member.shows_of_mem hdocument hvalued.1 hfirst hown
        exact ⟨hpath, exists_shows_append (.inl (Member.shows_demand hshows))⟩
      · obtain ⟨hpath, hshows⟩ := Member.shows_of_mem_all hdocument hvalued.2 hlater hrest
        exact ⟨hpath, exists_shows_append (.inr hshows)⟩

/-- **The rule of a schema shows all its quantifiers.** -/
theorem Schema.shows_of_mem {document : String} (hdocument : document ≠ "") {schema : Schema}
    (hvalued : schema.Meets .valued) (hq : q ∈ schema.quantifiers document) {own : Rule}
    (h : schema.rule document = .ok own) : q.document ≠ "" ∧ ∃ part ∈ own.parts, part.Shows q := by
  match schema with
  | ⟨members⟩ =>
      obtain ⟨demands, hdemands, rfl⟩ := Schema.rule_eq_ok.1 h
      obtain ⟨hpath, part, hpart, hshows⟩ :=
        Member.shows_of_mem_all hdocument hvalued hq hdemands
      exact ⟨hpath, part, List.mem_cons_of_mem _ hpart, hshows⟩

end

/-! ## §3. The text of a field. -/

/-- **The quantifiers of a field are in its text.** -/
theorem Field.infix_of_mem_quantifiers {f : Field} (hvalued : f.Meets .valued) {document : String}
    (hdocument : document ≠ "") {rule : Rule} (hrule : f.rule document = .ok rule) {text : String}
    (htext : rule.render = .ok text) (hq : q ∈ f.quantifiers document) :
    ∃ expression, q.Reads expression ∧ expression.toList <:+: text.toList := by
  have hshows : rule.toFormula.Shows q :=
    Formula.shows_node.2 (Field.shows_of_mem hdocument hvalued hq hrule).2
  exact hshows.infix_of_render (Rule.render_eq_ok.1 htext)

/-- A field that accepts something has a text if its predicates can be told from
their shorthand. -/
theorem Field.exists_render {f : Field} (hvalued : f.Meets .valued) (hf : f.Meets .buildable)
    (hne : f.assertions ≠ []) (document : String) :
    ∃ rule text, f.rule document = .ok rule ∧ rule.render = .ok text := by
  obtain ⟨name, optional, assertions⟩ := f
  obtain ⟨own, hown, hspeak⟩ := Field.exists_rule document _ hf
  obtain ⟨parts, hparts, rfl⟩ := Field.rule_eq_ok.1 hown
  have hfull : parts ≠ [] :=
    fun hnil => hne ((Assertion.alternatives_eq_nil_iff hvalued hparts).1 hnil)
  obtain ⟨text, htext⟩ :=
    Rule.exists_render (speaks_of_isEmpty hspeak (List.isEmpty_eq_false_iff.2 hfull))
  exact ⟨_, text, hown, htext⟩

end SecurityRules
