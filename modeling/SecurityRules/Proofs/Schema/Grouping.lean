/-
  SecurityRules.Proofs.Schema.Grouping
  ────────────────────────────────
  **THE RULE OF A SCHEMA KEEPS ITS GROUPING.**

  The rule of a schema without extra predicates is itself an expression of the
  shorthand.  Every leaf of it is one clause, whatever the keys, the values and
  the nesting are, so that reading its text finds the parentheses where building
  and rendering put them.

    * `Schema.filled_of_rule` — every leaf is an expression, piece by piece
      along the schema;
    * `Schema.toJunction_collapse` — the guards over the keys keep the whole from
      collapsing into a single clause.

  Main statement: `Schema.parse_of_rule`.
-/
import SecurityRules.Schema.Validator
import SecurityRules.Proofs.Schema.Building
import SecurityRules.Proofs.Schema.Expression
import SecurityRules.Proofs.Schema.Requirement

namespace SecurityRules

open Shorthand SecurityRules.Text

/-! ## §1. Schemas without extra predicates. -/

/-- The ready-made checks, without a predicate. -/
def Validator.readyMade : List Validator :=
  [string none, number none, boolean none, timestamp none, path none, uncheckedList none,
    nullable none]

/-- Whether a validator by itself is ready-made and has no predicate. -/
def Validator.Unconditional : Validator → Prop
  | .check condition rule => .check condition rule ∈ readyMade
  | .oneOf _ rule => rule = none
  | .map rule _ => rule = none
  | .anyOf _ => True

/-- No predicate anywhere, and keys that are made of the characters of names. -/
def Requirement.unconditional : Requirement where
  assertion a := a.rule = none
  validator v := v.Unconditional
  member m := m.name ≠ "" ∧ m.name.toList.all isNameChar = true

theorem isPath_of_isNameChar {name : String} (hne : name ≠ "")
    (h : name.toList.all isNameChar = true) : isPath name.toList = true := by
  have hword : name.toList.all isWordChar = true :=
    List.all_eq_true.2 fun c hc => isWordChar_of_isNameChar (List.all_eq_true.1 h c hc)
  cases hname : name.toList with
  | nil => exact absurd (String.toList_eq_nil_iff.1 hname) hne
  | cons c t =>
      rw [hname] at hword
      exact hword

/-- A ready-made check puts an operator between the value and a word. -/
theorem Validator.exists_of_mem_readyMade {condition : Condition} {rule : Option Predicate}
    (h : Validator.check condition rule ∈ readyMade) :
    rule = none ∧ ∃ op word, condition = ⟨.field .this, op, .literal word⟩ ∧ IsPlace word
      ∧ ∀ left right, op.apply left right = left ++ " " ++ op.spelling ++ " " ++ right := by
  have hplace : ∀ word ∈ ["string", "number", "bool", "timestamp", "path", "list", "null"],
      IsPlace word := by
    intro word hword
    have hall : ∀ w ∈ ["string", "number", "bool", "timestamp", "path", "list", "null"],
        isPath w.toList = true ∧ w ∉ reservedWords := by decide +kernel
    obtain ⟨hpath, hres⟩ := hall word hword
    exact ⟨hpath, hres⟩
  simp only [readyMade, string, number, boolean, timestamp, path, uncheckedList, nullable, ofType,
    List.mem_cons, List.not_mem_nil, or_false, Validator.check.injEq] at h
  rcases h with ⟨rfl, rfl⟩ | ⟨rfl, rfl⟩ | ⟨rfl, rfl⟩ | ⟨rfl, rfl⟩ | ⟨rfl, rfl⟩ | ⟨rfl, rfl⟩
    | ⟨rfl, rfl⟩
  all_goals
    refine ⟨rfl, _, _, rfl, ?_, fun _ _ => rfl⟩
    exact hplace _ (by simp)

/-! ## §2. Parts that do not nest. -/

variable {document target : String} {scope : Scope}

/-- Both guards of the keys are expressions. -/
theorem Schema.filled_keyGuards (hdoc : isPath document.toList = true) (s : Schema) :
    (s.keyGuards document).toFormula.Filled IsExpression 0 := by
  have hall : ".hasAll(" = ".hasAll" ++ "(" := by decide +kernel
  have honly : ".hasOnly(" = ".hasOnly" ++ "(" := by decide +kernel
  refine .node (Nat.zero_le _) (List.forall_mem_cons.2 ⟨?_, List.forall_mem_singleton.2 ?_⟩)
  · exact .leaf (isExpression_keysCall hdoc (by decide : [] ∈ signs) rfl (by decide +kernel) hall
      s.requiredKeys)
  · exact .leaf (isExpression_keysCall hdoc (by decide : [] ∈ signs) rfl (by decide +kernel) honly
      s.keys)

/-- So is the guard that a key is absent. -/
theorem isExpression_absent (hdoc : isPath document.toList = true) (name : String) :
    IsExpression (absent document name) := by
  have hreceiver : ("!" ++ keysOf document).toList = ['!'] ++ (keysOf document).toList :=
    String.toList_append
  have hcall : ".hasAny(" = ".hasAny" ++ "(" := by decide +kernel
  exact isExpression_keysCall hdoc (by decide : ['!'] ∈ signs) hreceiver (by decide +kernel) hcall
    [name]

/-- What a member adds is made of its own rule and of the guard for its key. -/
theorem Member.filled_demand (hdoc : isPath document.toList = true) (m : Member) {own : Rule}
    (hown : own.toFormula.Filled IsExpression 0) :
    ∀ part ∈ m.demand document own, part.Filled IsExpression 0 := by
  unfold Member.demand
  split
  · exact List.forall_mem_nil _
  split
  · refine List.forall_mem_singleton.2 (.node (Nat.zero_le _) ?_)
    exact List.forall_mem_cons.2
      ⟨.leaf (isExpression_absent hdoc m.name), List.forall_mem_singleton.2 hown⟩
  · exact List.forall_mem_singleton.2 hown

theorem filled_alternative {branch : Rule} (h : branch.toFormula.Filled IsExpression 0) :
    ∀ part ∈ alternative branch, part.Filled IsExpression 0 := by
  unfold alternative
  split
  · exact List.forall_mem_nil _
  · exact List.forall_mem_singleton.2 h

/-- The check of the elements of a list is the text of a rule, and fits between
parentheses when the leaves of the rule do. -/
theorem filled_of_elementParts (htarget : IsPlace target)
    {alternatives parts : List (Formula String)}
    (hleaves : ∀ part ∈ alternatives, part.Filled IsExpression 0)
    (h : elementParts target alternatives = .ok parts) :
    ∀ part ∈ parts, part.Filled IsExpression 0 := by
  by_cases hnil : alternatives = []
  · rw [hnil, elementParts_nil] at h
    cases h
    exact List.forall_mem_nil _
  · obtain ⟨check, hcheck, rfl⟩ := (elementParts_eq_ok hnil).1 h
    have hpasses : (Formula.node .any alternatives).Filled (fun text => Passes text.toList) 0 :=
      .node (Nat.zero_le _) fun part hpart =>
        (hleaves part hpart).mono (fun _ he => he.passes) (Nat.le_refl 0)
    have htext := Formula.joins_of_render joins_passes hpasses (Rule.render_eq_ok.1 hcheck)
    refine List.forall_mem_singleton.2 (.leaf ?_)
    exact isExpression_forEachElement htarget (isPlace_elementName target) htext

/-- A condition on the value becomes a test of it. -/
theorem filled_of_checkRule (howner : scope.owner = some target) (htarget : IsPlace target)
    {op : Operator} {text : String} (htext : IsOperand text)
    (hop : ∀ left right, op.apply left right = left ++ " " ++ op.spelling ++ " " ++ right)
    {own : Rule} (h : checkRule scope ⟨.field .this, op, .literal text⟩ none = .ok own) :
    own.toFormula.Filled IsExpression 0 := by
  obtain ⟨expression, extra, hexpr, hextra, rfl⟩ := checkRule_eq_ok.1 h
  obtain ⟨left, right, hleft, hright, rfl⟩ := Condition.resolve_eq_ok.1 hexpr
  obtain rfl : left = target := by
    simp only [Operand.resolve, Reference.resolve, howner] at hleft
    exact (Except.ok.inj hleft).symm
  obtain rfl : right = text := by
    rw [Operand.resolve_literal htext.literal] at hright
    exact (Except.ok.inj hright).symm
  obtain rfl := extraParts_none_eq_ok.1 hextra
  refine .node (Nat.zero_le _) (List.forall_mem_singleton.2 ?_)
  exact .leaf (isExpression_test htarget.isOperand htext (hop _ _))

/-! ## §3. Every leaf is an expression. -/

mutual

/-- **Every leaf in the demands of a shape is an expression.** The check of the
elements of a list is one, since its text is closed; a map goes on at the place
of its value. -/
theorem Shape.filled_of_parts {document target : String} (hdoc : isPath document.toList = true)
    (htarget : IsPlace target) (shape : Shape) (hs : shape.Meets .unconditional)
    {parts : List (Formula String)}
    (h : Shape.parts document target shape = .ok parts) :
    ∀ part ∈ parts, part.Filled IsExpression 0 := by
  match shape with
  | .plain kind =>
      cases h
      exact List.forall_mem_nil _
  | .oneOf values =>
      cases h
      exact List.forall_mem_nil _
  | .listOf element =>
      -- below the quantifier the element takes the place of the list
      obtain ⟨alternatives, halt, hparts⟩ := Shape.parts_listOf_eq_ok.1 h
      have hleaves := Assertion.filled_of_alternatives hdoc (isPlace_elementName target) element
        hs halt
      exact filled_of_elementParts htarget hleaves hparts
  | .mapOf schema =>
      -- a map is the document of its members
      obtain ⟨rule, hrule, rfl⟩ := Shape.parts_mapOf_eq_ok.1 h
      exact List.forall_mem_singleton.2 (Schema.filled_of_rule htarget.path schema hs hrule)

/-- A branch has no extra predicate, so it is a test and the demands of a shape.
-/
theorem Assertion.filled_of_branch {document target : String} (hdoc : isPath document.toList = true)
    (htarget : IsPlace target) (a : Assertion) (ha : a.Meets .unconditional) {branch : Rule}
    (h : Assertion.branch document target a = .ok branch) :
    branch.toFormula.Filled IsExpression 0 := by
  match a with
  | ⟨shape, rule⟩ =>
      obtain ⟨hrule, hshape⟩ := ha
      obtain rfl : rule = none := hrule
      obtain ⟨further, extra, hfurther, hextra, rfl⟩ := Assertion.branch_eq_ok.1 h
      obtain rfl := extraParts_none_eq_ok.1 hextra
      have htest := Shape.filled_test htarget (none : Option Predicate).isSome shape
      have hparts := Shape.filled_of_parts hdoc htarget shape hshape hfurther
      rw [List.append_nil]
      exact .node (Nat.zero_le _) (List.forall_mem_append.2 ⟨htest, hparts⟩)

theorem Assertion.filled_of_alternatives {document target : String}
    (hdoc : isPath document.toList = true) (htarget : IsPlace target) (assertions : List Assertion)
    (ha : Assertion.AllMeet .unconditional assertions) {parts : List (Formula String)}
    (h : Assertion.alternatives document target assertions = .ok parts) :
    ∀ part ∈ parts, part.Filled IsExpression 0 := by
  match assertions with
  | [] =>
      cases h
      exact List.forall_mem_nil _
  | a :: assertions =>
      obtain ⟨branch, rest, hbranch, hrest, rfl⟩ := Assertion.alternatives_cons_eq_ok.1 h
      have hfirst := Assertion.filled_of_branch hdoc htarget a ha.1 hbranch
      refine List.forall_mem_append.2 ⟨filled_alternative hfirst, ?_⟩
      exact Assertion.filled_of_alternatives hdoc htarget assertions ha.2 hrest

/-- A field stands at a place below the document. -/
theorem Field.filled_of_rule {document : String} (hdoc : isPath document.toList = true) (f : Field)
    (hname : isPath f.name.toList = true) (hf : f.Meets .unconditional) {own : Rule}
    (h : Field.rule document f = .ok own) : own.toFormula.Filled IsExpression 0 := by
  match f with
  | ⟨name, optional, assertions⟩ =>
      obtain ⟨parts, hparts, rfl⟩ := Field.rule_eq_ok.1 h
      refine .node (Nat.zero_le _) ?_
      exact Assertion.filled_of_alternatives hdoc (isPlace_joinPath hdoc hname) assertions hf hparts

/-- **Every leaf in the rule of a validator is an expression**: an operator
between a place and a literal, and what a map or a choice has inside. -/
theorem Validator.filled_of_rule {scope : Scope} {target : String}
    (howner : scope.owner = some target) (htarget : IsPlace target) (v : Validator)
    (hv : v.Meets .unconditional) {own : Rule} (h : Validator.rule scope v = .ok own) :
    own.toFormula.Filled IsExpression 0 := by
  match v with
  | .check condition rule =>
      -- without a predicate, a condition is one of the ready-made ones: a type, or null
      obtain ⟨rfl, op, word, rfl, hword, hop⟩ := Validator.exists_of_mem_readyMade hv
      exact filled_of_checkRule howner htarget hword.isOperand hop h
  | .oneOf values rule =>
      obtain rfl : rule = none := hv
      exact filled_of_checkRule howner htarget (isOperand_jsonList values) (fun _ _ => rfl) h
  | .map rule schema =>
      obtain ⟨hrule, hschema⟩ := hv
      obtain rfl : rule = none := hrule
      obtain ⟨place, base, inner, hplace, hbase, hinner, rfl⟩ := Validator.rule_map_eq_ok.1 h
      obtain rfl : target = place := Option.some.inj (howner.symm.trans hplace)
      have hmap : IsPlace "map" := ⟨by decide +kernel, by decide +kernel⟩
      -- the test of the type, and behind it the rule of the schema inside
      have hown := filled_of_checkRule howner htarget hmap.isOperand (fun _ _ => rfl) hbase
      have hnested := Schema.filled_of_rule htarget.path schema hschema hinner
      exact hown.push hnested
  | .anyOf validators =>
      obtain ⟨parts, hparts, rfl⟩ := Validator.rule_anyOf_eq_ok.1 h
      exact .node (Nat.zero_le _)
        (Validator.filled_of_parts howner htarget validators hv.2 hparts)

theorem Validator.filled_of_parts {scope : Scope} {target : String}
    (howner : scope.owner = some target) (htarget : IsPlace target) (validators : List Validator)
    (hv : Validator.AllMeet .unconditional validators) {parts : List (Formula String)}
    (h : Validator.parts scope validators = .ok parts) :
    ∀ part ∈ parts, part.Filled IsExpression 0 := by
  match validators with
  | [] =>
      cases h
      exact List.forall_mem_nil _
  | v :: validators =>
      obtain ⟨rule, rest, hrule, hrest, rfl⟩ := Validator.parts_cons_eq_ok.1 h
      refine List.forall_mem_cons.2 ⟨?_, ?_⟩
      · exact Validator.filled_of_rule howner htarget v hv.1 hrule
      · exact Validator.filled_of_parts howner htarget validators hv.2 hrest

/-- A member is a field or a validator at a place below the document. -/
theorem Member.filled_of_rule {document : String} (hdoc : isPath document.toList = true)
    (m : Member) (hm : m.Meets .unconditional) {own : Rule}
    (h : Member.rule document m = .ok own) :
    own.toFormula.Filled IsExpression 0 := by
  match m with
  | .field f =>
      obtain ⟨⟨hne, hname⟩, hf⟩ := hm
      exact Field.filled_of_rule hdoc f (isPath_of_isNameChar hne hname) hf h
  | .checked name optional validator =>
      obtain ⟨⟨hne, hname⟩, hv⟩ := hm
      have hplace := isPlace_joinPath hdoc (isPath_of_isNameChar hne hname)
      have howner : (Scope.ownedBy ⟨document, none⟩ name).owner
          = some (Text.joinPath document name) := rfl
      exact Validator.filled_of_rule howner hplace validator hv h

/-- What all members add consists of expressions. -/
theorem Member.filled_of_demands {document : String} (hdoc : isPath document.toList = true)
    (members : List Member) (hm : Member.AllMeet .unconditional members)
    {parts : List (Formula String)} (h : Member.demands document members = .ok parts) :
    ∀ part ∈ parts, part.Filled IsExpression 0 := by
  match members with
  | [] =>
      cases h
      exact List.forall_mem_nil _
  | m :: members =>
      obtain ⟨own, rest, hown, hrest, rfl⟩ := Member.demands_cons_eq_ok.1 h
      have hfirst := Member.filled_of_rule hdoc m hm.1 hown
      refine List.forall_mem_append.2 ⟨Member.filled_demand hdoc m hfirst, ?_⟩
      exact Member.filled_of_demands hdoc members hm.2 hrest

/-- **Every leaf of the rule of a schema is an expression.** -/
theorem Schema.filled_of_rule {document : String} (hdoc : isPath document.toList = true)
    (s : Schema) (hs : s.Meets .unconditional) {rule : Rule}
    (h : Schema.rule document s = .ok rule) :
    rule.toFormula.Filled IsExpression 0 := by
  match s with
  | ⟨members⟩ =>
      obtain ⟨demands, hdemands, rfl⟩ := Schema.rule_eq_ok.1 h
      refine .node (Nat.zero_le _) (List.forall_mem_cons.2 ⟨?_, ?_⟩)
      · exact Schema.filled_keyGuards hdoc ⟨members⟩
      · exact Member.filled_of_demands hdoc members hs hdemands

end

/-! ## §4. Reading the rule of a schema. -/

/-- The guards over the keys are two, so the rule of a schema does not collapse
into a leaf. -/
theorem Schema.toJunction_collapse {s : Schema} {rule : Rule}
    (h : Schema.rule document s = .ok rule) :
    rule.toFormula.collapse.toJunction.toFormula = rule.toFormula.collapse := by
  obtain ⟨members⟩ := s
  obtain ⟨demands, -, rfl⟩ := Schema.rule_eq_ok.1 h
  show (Formula.collapse (.node _ _)).toJunction.toFormula = Formula.collapse (.node _ _)
  rw [Formula.collapse_node]
  cases demands with
  | nil => rfl
  | cons part demands => rfl

/-- **The rule of a schema keeps its grouping.** The text of the rule is read
again, as a predicate with the connectives and the nesting of the rule, up to
junctions of one part. The predicate renders to the same text in every scope. -/
theorem Schema.parse_of_rule {s : Schema} (hs : s.Meets .unconditional)
    (hdoc : isPath document.toList = true) {rule : Rule} (hrule : Schema.rule document s = .ok rule)
    {text : String} (htext : rule.render = .ok text) :
    ∃ q : Predicate, Predicate.parse text = .ok q ∧ q.shape = rule.toFormula.collapse.shape
      ∧ ∀ scope : Scope, q.renderIn scope = .ok text := by
  have hleaves := Schema.filled_of_rule hdoc s hs hrule
  have hrender := Rule.render_eq_ok.1 htext
  -- collapsed, the rule has two or more parts at every node and renders as before
  have hfilled := (Formula.filled_of_render hleaves hrender).collapse_of_one
  have hblank := hleaves.mono (fun _ he => he.isBlank_eq_false) (Nat.le_refl 0)
  rw [← Formula.render_collapse hblank] at hrender
  obtain ⟨k, hk⟩ :=
    (hfilled.mono (fun _ (he : IsExpression _) => he.stands) (Nat.le_refl 2)).exists_choice
  refine ⟨(rule.toFormula.collapse.map k).toJunction, parse_of_render hk hrender, ?_, ?_⟩
  · rw [Predicate.shape, Formula.shape_toJunction, Formula.shape_map, ← Formula.shape_toJunction,
      Schema.toJunction_collapse hrule]
  · intro scope
    have hagain : Formula.traverse (Clause.resolve scope) (rule.toFormula.collapse.map k)
        = .ok (some rule.toFormula.collapse) :=
      Formula.traverse_map (hk.mono (fun _ hs => hs.2 scope) (Nat.le_refl 2))
    have hresolve : Predicate.resolve scope (rule.toFormula.collapse.map k).toJunction
        = .ok rule.toFormula.collapse.toJunction :=
      Junction.traverse_toJunction hagain
    rw [Predicate.renderIn, hresolve]
    refine Rule.render_eq_ok.2 ?_
    rw [Schema.toJunction_collapse hrule]
    exact hrender

/-- Rows that may be left out, of a text with a quote and a parenthesis in it or
a number, and a time that may be null. -/
def Schema.rowsAndTime : Schema :=
  ⟨[.field ⟨"rows", true, [⟨.listOf [⟨.oneOf [.text "\")$a", .integer (-3)], none⟩], none⟩]⟩,
    .checked "at" false (.anyOf [.timestamp none, .nullable none])]⟩

/-- The rule of `rowsAndTime` for the document `d`. -/
def Schema.rowsAndTimeText : String :=
  "((d.keys().hasAll([\"at\"]) && d.keys().hasOnly([\"rows\",\"at\"]))"
    ++ " && (!d.keys().hasAny([\"rows\"])"
    ++ " || (d.rows is list && d.rows.all(rows_item, rows_item in [\"\\\")$a\",-3])))"
    ++ " && (d.at is timestamp || d.at == null))"

theorem Schema.parse_rowsAndTime :
    rowsAndTime.Meets .unconditional ∧ isPath "d".toList = true
      ∧ ∃ rule, Schema.rule "d" rowsAndTime = .ok rule ∧ rule.render = .ok rowsAndTimeText
        ∧ ∃ q : Predicate, Predicate.parse rowsAndTimeText = .ok q
          ∧ q.shape = .node .all
            [.node .all [.leaf (), .leaf ()],
              .node .any [.leaf (), .node .all [.leaf (), .leaf ()]],
              .node .any [.leaf (), .leaf ()]]
          ∧ ∀ scope : Scope, q.renderIn scope = .ok rowsAndTimeText := by
  have hmeets : rowsAndTime.Meets .unconditional := by
    have hrows : "rows" ≠ "" ∧ "rows".toList.all isNameChar = true := by decide +kernel
    have hat : "at" ≠ "" ∧ "at".toList.all isNameChar = true := by decide +kernel
    refine ⟨⟨hrows, ⟨rfl, ⟨rfl, trivial⟩, trivial⟩, trivial⟩, ⟨hat, trivial, ?_, ?_, trivial⟩,
      trivial⟩
    · show Validator.timestamp none ∈ Validator.readyMade
      simp [Validator.readyMade]
    · show Validator.nullable none ∈ Validator.readyMade
      simp [Validator.readyMade]
  have hdoc : isPath "d".toList = true := by decide +kernel
  obtain ⟨rule, hrule⟩ : ∃ rule, Schema.rule "d" rowsAndTime = .ok rule := ⟨_, rfl⟩
  have htext : rule.render = .ok rowsAndTimeText := by
    cases hrule
    exact Except.eq_ok_of_toOption (by decide +kernel)
  have hshape : rule.toFormula.collapse.shape = .node .all
      [.node .all [.leaf (), .leaf ()],
        .node .any [.leaf (), .node .all [.leaf (), .leaf ()]],
        .node .any [.leaf (), .leaf ()]] := by
    cases hrule
    rfl
  obtain ⟨q, hq, hsame, hrender⟩ := Schema.parse_of_rule hmeets hdoc hrule htext
  exact ⟨hmeets, hdoc, rule, hrule, htext, q, hq, hsame.trans hshape, hrender⟩

end SecurityRules
