/-
  SecurityRules.Proofs.Formula.Truth
  ────────────────────────────────
  **THE TRUTH OF AN AND/OR TREE.**

  A leaf is true, false, or says nothing.  A junction with `all` is true when
  none of its parts is false, one with `any` when some part is true; parts that
  say nothing have no say in either.

    * `noneFalse_…`, `someTrue_…` — the two ways of joining parts, over lists of
      parts that are put together;
    * `Junction.holds_traverse` — replacing leaves by leaves that say the same
      changes nothing, also where leaves are dropped because they say nothing.
-/
import SecurityRules.Proofs.Formula.Collapse

namespace SecurityRules

/-! ## §1. Truth. -/

section Truth

variable {α β ε : Type}

/-- What a connective makes of the truth of its parts. -/
def Connective.combine : Connective → List Bool → Bool
  | .all, values => values.all id
  | .any, values => values.any id

/-- The truth of a part, where `read` gives that of the leaves; `none` for a
leaf that says nothing. -/
def Formula.truth (read : α → Option Bool) : Formula α → Option Bool :=
  Formula.fold read fun c values => some (c.combine (values.filterMap id))

/-- Whether a junction is true. -/
def Junction.holds (read : α → Option Bool) (j : Junction α) : Bool :=
  j.connective.combine (j.parts.filterMap (Formula.truth read))

variable {read : α → Option Bool}

theorem Formula.truth_leaf (a : α) : Formula.truth read (.leaf a) = read a := rfl

/-- A junction always says something. -/
theorem Formula.truth_toFormula (j : Junction α) :
    Formula.truth read j.toFormula = some (j.holds read) := by
  unfold Formula.truth Junction.toFormula
  rw [Formula.fold_node, List.filterMap_map]
  rfl

/-! ## §2. Parts that are joined. -/

/-- Whether none of some parts is false. -/
def NoneFalse (read : α → Option Bool) (parts : List (Formula α)) : Prop :=
  ∀ part ∈ parts, Formula.truth read part ≠ some false

/-- Whether some part is true. -/
def SomeTrue (read : α → Option Bool) (parts : List (Formula α)) : Prop :=
  ∃ part ∈ parts, Formula.truth read part = some true

/-- Parts that say nothing have no say in whether all of them hold. -/
theorem Junction.holds_all_iff {parts : List (Formula α)} :
    Junction.holds read ⟨.all, parts⟩ = true ↔ NoneFalse read parts := by
  show (parts.filterMap (Formula.truth read)).all id = true ↔ _
  rw [List.all_eq_true]
  constructor
  · intro h part hpart hfalse
    exact Bool.false_ne_true (h false (List.mem_filterMap.2 ⟨part, hpart, hfalse⟩))
  · intro h b hb
    obtain ⟨part, hpart, htruth⟩ := List.mem_filterMap.1 hb
    cases b with
    | true => rfl
    | false => exact absurd htruth (h part hpart)

/-- Nor have they in whether any of them does. -/
theorem Junction.holds_any_iff {parts : List (Formula α)} :
    Junction.holds read ⟨.any, parts⟩ = true ↔ SomeTrue read parts := by
  show (parts.filterMap (Formula.truth read)).any id = true ↔ _
  rw [List.any_eq_true]
  constructor
  · rintro ⟨b, hb, htrue⟩
    obtain rfl : b = true := htrue
    exact List.mem_filterMap.1 hb
  · intro h
    exact ⟨true, List.mem_filterMap.2 h, rfl⟩

theorem noneFalse_nil : NoneFalse read [] :=
  fun _ hpart => absurd hpart List.not_mem_nil

theorem not_someTrue_nil : ¬SomeTrue read [] :=
  fun ⟨_, hpart, _⟩ => absurd hpart List.not_mem_nil

/-- Parts may be taken apart anywhere, and `all` asks for both. -/
theorem noneFalse_append {front rest : List (Formula α)} :
    NoneFalse read (front ++ rest) ↔ NoneFalse read front ∧ NoneFalse read rest :=
  List.forall_mem_append

/-- For `any` one of both is enough. -/
theorem someTrue_append {front rest : List (Formula α)} :
    SomeTrue read (front ++ rest) ↔ SomeTrue read front ∨ SomeTrue read rest := by
  unfold SomeTrue
  simp only [List.mem_append, or_and_right, exists_or]

theorem noneFalse_cons {part : Formula α} {parts : List (Formula α)} :
    NoneFalse read (part :: parts) ↔ NoneFalse read [part] ∧ NoneFalse read parts :=
  @noneFalse_append α read [part] parts

theorem someTrue_cons {part : Formula α} {parts : List (Formula α)} :
    SomeTrue read (part :: parts) ↔ SomeTrue read [part] ∨ SomeTrue read parts :=
  @someTrue_append α read [part] parts

/-- A leaf that says something is not false where it is true. -/
theorem noneFalse_leaf {a : α} {b : Bool} (h : read a = some b) :
    NoneFalse read [.leaf a] ↔ b = true := by
  unfold NoneFalse
  simp only [List.forall_mem_singleton, Formula.truth_leaf, h]
  cases b <;> simp

theorem someTrue_leaf {a : α} {b : Bool} (h : read a = some b) :
    SomeTrue read [.leaf a] ↔ b = true := by
  unfold SomeTrue
  simp only [List.mem_singleton, exists_eq_left, Formula.truth_leaf, h, Option.some.injEq]

/-- A junction among parts counts as what it says. -/
theorem noneFalse_toFormula {j : Junction α} :
    NoneFalse read [j.toFormula] ↔ j.holds read = true := by
  unfold NoneFalse
  simp only [List.forall_mem_singleton, Formula.truth_toFormula]
  cases j.holds read <;> simp

theorem someTrue_toFormula {j : Junction α} :
    SomeTrue read [j.toFormula] ↔ j.holds read = true := by
  unfold SomeTrue
  simp only [List.mem_singleton, exists_eq_left, Formula.truth_toFormula, Option.some.injEq]

/-- One more part has to hold besides. -/
theorem Junction.holds_push_all_iff {parts : List (Formula α)} {part : Formula α} :
    Junction.holds read (Junction.push ⟨.all, parts⟩ part) = true
      ↔ Junction.holds read ⟨.all, parts⟩ = true ∧ NoneFalse read [part] := by
  show Junction.holds read ⟨.all, parts ++ [part]⟩ = true ↔ _
  rw [Junction.holds_all_iff, Junction.holds_all_iff, noneFalse_append]

/-! ## §3. Traversals. -/

namespace Formula

variable {f : α → Except ε (Option β)}

/-- What is told of a part by what becomes of it is told of all parts by what
becomes of them. -/
theorem filterMap_of_traverseAll {γ : Type} {F : Formula α → Option γ} {G : Formula β → Option γ}
    {parts : List (Formula α)} {qs : List (Formula β)}
    (heq : ∀ part ∈ parts, ∀ o, traverse f part = .ok o → F part = o.bind G)
    (h : traverseAll f parts = .ok qs) : qs.filterMap G = parts.filterMap F := by
  induction parts generalizing qs with
  | nil =>
      cases h
      rfl
  | cons part parts ih =>
      obtain ⟨kept, rest, hpart, hrest, rfl⟩ := traverseAll_cons_eq_ok.1 h
      have htail := ih (fun p hp => heq p (List.mem_cons_of_mem _ hp)) hrest
      rw [List.filterMap_append, htail, List.filterMap_cons, heq part List.mem_cons_self kept hpart]
      cases kept with
      | none => rfl
      | some q =>
          show List.filterMap G [q] ++ _ = _
          cases hq : G q <;> simp [hq]

/-- A traversal keeps the truth of a tree, if what becomes of a leaf says what
the leaf says. -/
theorem truth_traverse {read' : β → Option Bool}
    (hleaf : ∀ a o, f a = .ok o → read a = o.bind read') {t : Formula α} {o : Option (Formula β)}
    (h : traverse f t = .ok o) : truth read t = o.bind (truth read') := by
  induction t using Formula.induct generalizing o with
  | leaf a =>
      obtain ⟨kept, hkept, rfl⟩ := traverse_leaf_eq_ok.1 h
      rw [truth_leaf, hleaf a kept hkept]
      cases kept <;> rfl
  | node c parts ih =>
      obtain ⟨qs, hqs, rfl⟩ := traverse_node_eq_ok.1 h
      have hparts := filterMap_of_traverseAll (fun part hpart o ho => ih part hpart ho) hqs
      show truth read (Junction.toFormula ⟨c, parts⟩) = truth read' (Junction.toFormula ⟨c, qs⟩)
      rw [truth_toFormula, truth_toFormula, Junction.holds, Junction.holds, hparts]

end Formula

/-- **A traversal keeps the truth of a junction.** -/
theorem Junction.holds_traverse {f : α → Except ε (Option β)} {read' : β → Option Bool}
    (hleaf : ∀ a o, f a = .ok o → read a = o.bind read') {j : Junction α} {k : Junction β}
    (h : j.traverse f = .ok k) : k.holds read' = j.holds read := by
  unfold Junction.traverse at h
  obtain ⟨qs, hqs, rfl⟩ := Except.map_eq_ok.1 h
  have hparts := Formula.filterMap_of_traverseAll
    (fun part _ o ho => Formula.truth_traverse hleaf ho) hqs
  rw [Junction.holds, Junction.holds, hparts]

end Truth

/-! ## §4. Rules and predicates. -/

/-- What an expression says, given which expressions are true. A blank one says
nothing. -/
def readText (v : String → Bool) (expression : String) : Option Bool :=
  if Text.isBlank expression then none else some (v expression)

/-- A text that is no blank says what it says. -/
theorem readText_of_not_blank {v : String → Bool} {expression : String}
    (h : Text.isBlank expression = false) : readText v expression = some (v expression) := by
  rw [readText, h]
  rfl

/-- Whether a rule is true, given which expressions are. -/
def Rule.holds (v : String → Bool) (rule : Rule) : Bool :=
  Junction.holds (readText v) rule

/-- What a clause says in a scope: a blank literal nothing, any other literal
what it says as it stands, and a condition what its expression says. -/
def Clause.read (v : String → Bool) (scope : Scope) : Clause → Option Bool
  | .literal text => if Text.isBlank text then none else some (v text)
  | .condition c =>
      match c.resolve scope with
      | .ok expression => some (v expression)
      | .error _ => none

/-- Whether a predicate is true in a scope, given which expressions are. -/
def Predicate.holdsIn (v : String → Bool) (scope : Scope) (p : Predicate) : Bool :=
  Junction.holds (Clause.read v scope) p

/-- A clause says in a scope what it becomes there says: a blank literal is
dropped and says nothing. -/
theorem Clause.read_of_resolve {v : String → Bool} {scope : Scope} (c : Clause)
    (o : Option String) (h : c.resolve scope = .ok o) : c.read v scope = o.bind (readText v) := by
  cases c with
  | literal text =>
      rw [Clause.resolve] at h
      cases h
      by_cases hblank : Text.isBlank text = true
      · rw [Clause.read, if_pos hblank, if_pos hblank]
        rfl
      · rw [Clause.read, if_neg hblank, if_neg hblank]
        exact (readText_of_not_blank (Bool.eq_false_iff.2 hblank)).symm
  | condition d =>
      rw [Clause.resolve] at h
      obtain ⟨expression, hd, rfl⟩ := Except.map_eq_ok.1 h
      -- a condition always says something, as its operator does
      have hblank : Text.isBlank expression = false :=
        Clause.isBlank_of_resolve (Clause.resolve_eq_ok_some.2 (.inr ⟨d, rfl, hd⟩))
      rw [Clause.read, hd]
      exact (readText_of_not_blank hblank).symm

/-- **The rule of a predicate says what the predicate says in its scope.** -/
theorem Predicate.holds_resolve {v : String → Bool} {scope : Scope} {p : Predicate} {rule : Rule}
    (h : p.resolve scope = .ok rule) : rule.holds v = p.holdsIn v scope :=
  Junction.holds_traverse Clause.read_of_resolve h

end SecurityRules
