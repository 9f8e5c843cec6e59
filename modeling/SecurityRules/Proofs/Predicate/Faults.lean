/-
  SecurityRules.Proofs.Predicate.Faults
  ────────────────────────────────
  **WHEN A PREDICATE CANNOT BE RESOLVED OR RENDERED.**

  What can be wrong with a predicate in a scope can be read off the predicate.
  Resolving it goes through the operands of its conditions and stops at the
  first faulty one.  What is left after that can only lack something to say:
  rendering fails when some node has blank terms alone, wherever it stands.

    * `Operand.faultOf_resolve` — the fault of one operand;
    * `Predicate.faultOf_resolve` — the first fault among all of them;
    * `Formula.filled_one_iff_of_traverse` — which nodes keep a part when leaves
      are dropped;
    * `Predicate.speaks_iff_of_resolve` — what is resolved has something to say
      everywhere when no node is silent.

  Main statement: `Predicate.failure_law`.
-/
import SecurityRules.Proofs.Formula.Failure

namespace SecurityRules

/-! ## §1. Faulty operands. -/

/-- The fault of a reference in a scope: nothing owns `this`, or there is no
name. -/
def Reference.faultIn (scope : Scope) : Reference → Option Fault
  | .this => if scope.owner.isNone then some .unboundThis else none
  | .named name => if name = "" then some .blankReference else none

/-- The fault of an operand in a scope. Of a lookup the path is judged first. -/
def Operand.faultIn (scope : Scope) : Operand → Option Fault
  | .literal text => if Text.isBlank text then some .blankOperand else none
  | .field reference => reference.faultIn scope
  | .lookup via path => if path = "" then some .blankReference else via.faultIn scope

/-- The operands of a clause, the left one first. A literal that stands alone
has none, whether or not it is blank. -/
def Clause.operands : Clause → List Operand
  | .literal _ => []
  | .condition c => [c.left, c.right]

/-- The operands of a predicate, depth first and from left to right. -/
def Predicate.operands (p : Predicate) : List Operand :=
  p.toFormula.leaves.flatMap Clause.operands

variable {scope : Scope}

theorem Reference.faultOf_resolve (r : Reference) :
    faultOf (r.resolve scope) = r.faultIn scope := by
  cases r with
  | this =>
      rw [resolve, faultIn]
      cases scope.owner <;> rfl
  | named name =>
      rw [resolve, faultIn]
      split <;> rfl

theorem Operand.faultOf_resolve (o : Operand) : faultOf (o.resolve scope) = o.faultIn scope := by
  cases o with
  | literal text =>
      rw [resolve, faultIn]
      split <;> rfl
  | field reference => exact reference.faultOf_resolve
  | lookup via path =>
      rw [resolve, faultIn]
      split
      · rfl
      · rw [faultOf_map]
        exact via.faultOf_resolve

theorem Clause.faultOf_resolve (c : Clause) :
    faultOf (c.resolve scope) = c.operands.findSome? (Operand.faultIn scope) := by
  cases c with
  | literal text => rfl
  | condition c =>
      rw [resolve, faultOf_map, Condition.resolve, faultOf_bind_bind, c.left.faultOf_resolve,
        c.right.faultOf_resolve, operands, findSome?_cons_eq_or, List.findSome?_singleton]

theorem findSome?_flatMap {α β γ : Type} (f : β → Option γ) (g : α → List β) (as : List α) :
    (as.flatMap g).findSome? f = as.findSome? fun a => (g a).findSome? f := by
  induction as with
  | nil => rfl
  | cons a as ih => rw [List.flatMap_cons, List.findSome?_append, findSome?_cons_eq_or, ih]

/-- **Resolving a predicate leaves the first fault among its operands.** -/
theorem Predicate.faultOf_resolve (p : Predicate) :
    faultOf (p.resolve scope) = p.operands.findSome? (Operand.faultIn scope) := by
  rw [resolve, Junction.faultOf_traverse, operands, findSome?_flatMap]
  exact congrArg (List.findSome? · _) (funext Clause.faultOf_resolve)

/-! ## §2. Nodes that keep a part. -/

namespace Formula

variable {α β ε : Type} {f : α → Except ε (Option β)}

/-- Whether a tree occurs in another one, as the whole or below some node. -/
inductive Occurs (t : Formula α) : Formula α → Prop where
  | self : Occurs t t
  | inside {c : Connective} {parts : List (Formula α)} {part : Formula α} (hpart : part ∈ parts)
      (h : Occurs t part) : Occurs t (.node c parts)

/-- No node occurs in a leaf. -/
theorem not_occurs_leaf {c : Connective} {parts : List (Formula α)} {a : α} :
    ¬Occurs (.node c parts) (.leaf a) := by
  intro h
  cases h

/-- What a traversal leaves is what it makes of the parts, one by one. -/
theorem mem_traverseAll_iff {parts : List (Formula α)} {qs : List (Formula β)}
    (h : traverseAll f parts = .ok qs) (q : Formula β) :
    q ∈ qs ↔ ∃ part ∈ parts, traverse f part = .ok (some q) := by
  constructor
  · exact exists_of_mem_traverseAll h
  · rintro ⟨part, hpart, hq⟩
    induction parts generalizing qs with
    | nil => exact absurd hpart List.not_mem_nil
    | cons first parts ih =>
        obtain ⟨kept, rest, hfirst, hrest, rfl⟩ := traverseAll_cons_eq_ok.1 h
        rcases List.mem_cons.1 hpart with rfl | hlater
        · rw [hq] at hfirst
          cases hfirst
          exact List.mem_append_left _ List.mem_cons_self
        · exact List.mem_append_right _ (ih hrest hlater)

theorem exists_traverse_of_mem {parts : List (Formula α)} {qs : List (Formula β)}
    (h : traverseAll f parts = .ok qs) {part : Formula α} (hpart : part ∈ parts) :
    ∃ o, traverse f part = .ok o := by
  induction parts generalizing qs with
  | nil => exact absurd hpart List.not_mem_nil
  | cons first parts ih =>
      obtain ⟨kept, rest, hfirst, hrest, -⟩ := traverseAll_cons_eq_ok.1 h
      rcases List.mem_cons.1 hpart with rfl | hlater
      · exact ⟨kept, hfirst⟩
      · exact ih hrest hlater

/-- A node stays, whatever is left of its parts. -/
theorem exists_leaf_of_traverse_eq_none {t : Formula α} (h : traverse f t = .ok none) :
    ∃ a, t = .leaf a := by
  cases t with
  | leaf a => exact ⟨a, rfl⟩
  | node c parts =>
      obtain ⟨qs, -, hqs⟩ := traverse_node_eq_ok.1 h
      cases hqs

/-- Every leaf that is left is one that the traversal keeps. -/
theorem filled_zero_of_traverse {P : β → Prop} (hP : ∀ a b, f a = .ok (some b) → P b)
    {t : Formula α} {u : Formula β} (h : traverse f t = .ok (some u)) : u.Filled P 0 := by
  induction t using Formula.induct generalizing u with
  | leaf a =>
      obtain ⟨kept, hkept, hmap⟩ := traverse_leaf_eq_ok.1 h
      obtain ⟨b, rfl, rfl⟩ := Option.map_eq_some_iff.1 hmap
      exact .leaf (hP a b hkept)
  | node c parts ih =>
      obtain ⟨qs, hqs, hnode⟩ := traverse_node_eq_ok.1 h
      cases hnode
      refine .node (Nat.zero_le _) fun q hq => ?_
      obtain ⟨part, hpart, hq⟩ := exists_of_mem_traverseAll hqs hq
      exact ih part hpart hq

/-- **No node that is left is without parts** exactly if every node had a part
that is kept. -/
theorem filled_one_iff_of_traverse {P : β → Prop} (hP : ∀ a b, f a = .ok (some b) → P b)
    {t : Formula α} {u : Formula β} (h : traverse f t = .ok (some u)) :
    u.Filled P 1 ↔ ∀ c parts, Occurs (.node c parts) t →
      ∃ part ∈ parts, traverse f part ≠ .ok none := by
  induction t using Formula.induct generalizing u with
  | leaf a =>
      obtain ⟨kept, hkept, hmap⟩ := traverse_leaf_eq_ok.1 h
      obtain ⟨b, rfl, rfl⟩ := Option.map_eq_some_iff.1 hmap
      exact ⟨fun _ c parts hin => absurd hin not_occurs_leaf, fun _ => .leaf (hP a b hkept)⟩
  | node c parts ih =>
      obtain ⟨qs, hqs, hnode⟩ := traverse_node_eq_ok.1 h
      cases hnode
      constructor
      · intro hfilled d inner hin
        cases hfilled with
        | node hlen hparts =>
            cases hin with
            | self =>
                obtain ⟨q, hq⟩ := List.exists_mem_of_length_pos hlen
                obtain ⟨part, hpart, hkept⟩ := (mem_traverseAll_iff hqs q).1 hq
                exact ⟨part, hpart, by rw [hkept]; exact fun e => nomatch e⟩
            | @inside _ _ part hpart hin =>
                obtain ⟨o, ho⟩ := exists_traverse_of_mem hqs hpart
                cases o with
                | none =>
                    -- a part that is dropped is a leaf, and no node occurs in it
                    obtain ⟨a, rfl⟩ := exists_leaf_of_traverse_eq_none ho
                    exact absurd hin not_occurs_leaf
                | some q =>
                    have hq := hparts q ((mem_traverseAll_iff hqs q).2 ⟨part, hpart, ho⟩)
                    exact (ih part hpart ho).1 hq d inner hin
      · intro hkeep
        refine .node ?_ fun q hq => ?_
        · obtain ⟨part, hpart, hne⟩ := hkeep c parts .self
          obtain ⟨o, ho⟩ := exists_traverse_of_mem hqs hpart
          cases o with
          | none => exact absurd ho hne
          | some q => exact List.length_pos_of_mem ((mem_traverseAll_iff hqs q).2 ⟨part, hpart, ho⟩)
        · obtain ⟨part, hpart, ho⟩ := (mem_traverseAll_iff hqs q).1 hq
          exact (ih part hpart ho).2 fun d inner hin => hkeep d inner (.inside hpart hin)

end Formula

/-! ## §3. Silent nodes. -/

/-- Whether a term is a blank literal. A node never is. -/
def Term.isBlank : Term → Bool
  | .leaf c => c.isBlank
  | .node _ _ => false

/-- Whether some node of a predicate, the whole or a nested one, has no term but
blank ones. -/
def Predicate.HasSilentNode (p : Predicate) : Prop :=
  ∃ c parts, Formula.Occurs (.node c parts) p.toFormula ∧ ∀ t ∈ parts, Term.isBlank t = true

theorem Clause.resolve_eq_none_iff {c : Clause} :
    c.resolve scope = .ok none ↔ c.isBlank = true := by
  constructor
  · intro h
    cases hblank : c.isBlank with
    | true => rfl
    | false => exact absurd h (Clause.resolve_ne_none hblank)
  · intro h
    cases c with
    | literal text =>
        have hblank : Text.isBlank text = true := h
        rw [Clause.resolve, if_pos hblank]
    | condition c => cases h

/-- Only blank terms are dropped. -/
theorem Term.traverse_eq_none_iff {t : Term} :
    Formula.traverse (Clause.resolve scope) t = .ok none ↔ Term.isBlank t = true := by
  cases t with
  | leaf c =>
      rw [Formula.traverse_leaf_eq_ok]
      simp only [Option.map_eq_none_iff, exists_eq_right]
      exact Clause.resolve_eq_none_iff
  | node c parts =>
      constructor
      · intro h
        obtain ⟨a, ha⟩ := Formula.exists_leaf_of_traverse_eq_none h
        cases ha
      · intro h
        cases h

/-- A predicate is resolved as it is within a larger one. -/
theorem Predicate.traverse_of_resolve {p : Predicate} {rule : Rule}
    (h : p.resolve scope = .ok rule) :
    Formula.traverse (Clause.resolve scope) p.toFormula = .ok (some rule.toFormula) := by
  rw [Predicate.resolve, Junction.traverse] at h
  refine Formula.traverse_node_eq_ok.2 ?_
  obtain ⟨parts, hparts, rfl⟩ := Except.map_eq_ok.1 h
  exact ⟨parts, hparts, rfl⟩

/-- No leaf of what a predicate becomes is blank. -/
theorem Predicate.filled_of_resolve {p : Predicate} {rule : Rule} (h : p.resolve scope = .ok rule) :
    rule.toFormula.Filled (fun text => Text.isBlank text = false) 0 :=
  Formula.filled_zero_of_traverse (fun _ _ hc => Clause.isBlank_of_resolve hc)
    (Predicate.traverse_of_resolve h)

/-- **What a predicate becomes has something to say everywhere** unless some node
of the predicate is silent. -/
theorem Predicate.speaks_iff_of_resolve {p : Predicate} {rule : Rule}
    (h : p.resolve scope = .ok rule) : rule.toFormula.Speaks ↔ ¬p.HasSilentNode := by
  have hiff := Formula.filled_one_iff_of_traverse (fun _ _ hc => Clause.isBlank_of_resolve hc)
    (Predicate.traverse_of_resolve h)
  rw [Formula.Speaks, hiff, HasSilentNode]
  constructor
  · rintro hkeep ⟨c, parts, hin, hsilent⟩
    obtain ⟨part, hpart, hne⟩ := hkeep c parts hin
    exact hne (Term.traverse_eq_none_iff.2 (hsilent part hpart))
  · intro hnone c parts hin
    have hsome : ∃ t ∈ parts, Term.isBlank t = false := by
      by_cases hsilent : ∀ t ∈ parts, Term.isBlank t = true
      · exact absurd ⟨c, parts, hin, hsilent⟩ hnone
      · simpa using hsilent
    obtain ⟨t, ht, hblank⟩ := hsome
    refine ⟨t, ht, fun hdrop => ?_⟩
    rw [Term.traverse_eq_none_iff.1 hdrop] at hblank
    cases hblank

/-! ## §4. Texts of rules. -/

/-- Having something to say passes to the text of a rule. -/
theorem joins_not_isBlank : Joins fun s => s.all Text.isBlankChar = false where
  append hs _ := by rw [List.all_append, hs, Bool.false_and]
  symbol c := by cases c <;> decide
  group _ := rfl

/-- The text of a rule without blank leaves is not blank. -/
theorem Rule.isBlank_of_render {rule : Rule}
    (h : rule.toFormula.Filled (fun text => Text.isBlank text = false) 0) {text : String}
    (htext : rule.render = .ok text) : Text.isBlank text = false :=
  Formula.joins_of_render joins_not_isBlank h (Rule.render_eq_ok.1 htext)

/-- **When resolving and rendering a predicate fail.** Resolving fails with the
fault of the first faulty operand, and only if there is one. Rendering what is
resolved fails when some node is silent, with no other fault than that of a rule
without conditions; where it does not fail, the text has something to say. -/
theorem Predicate.failure_law (scope : Scope) (p : Predicate) :
    (∀ fault, p.resolve scope = .error fault ↔
        ∃ before o after, p.operands = before ++ o :: after ∧ o.faultIn scope = some fault
          ∧ ∀ b ∈ before, b.faultIn scope = none)
      ∧ ∀ rule, p.resolve scope = .ok rule →
          ((∃ fault, rule.render = .error fault) ↔ p.HasSilentNode)
            ∧ (∀ fault, rule.render = .error fault → fault = .emptyRule)
            ∧ ∀ text, rule.render = .ok text → Text.isBlank text = false := by
  refine ⟨fun fault => ?_, fun rule hrule => ⟨?_, rule.raises_render, fun text htext => ?_⟩⟩
  · rw [← faultOf_eq_some, p.faultOf_resolve, List.findSome?_eq_some_iff]
  · -- resolving drops blank literals, so the leaves of a rule are never blank
    have hspoken := Predicate.filled_of_resolve hrule
    constructor
    · rintro ⟨fault, hfault⟩
      by_cases hsilent : p.HasSilentNode
      · exact hsilent
      · obtain ⟨text, htext⟩ :=
          Rule.exists_render ((Predicate.speaks_iff_of_resolve hrule).2 hsilent)
        rw [htext] at hfault
        cases hfault
    · intro hsilent
      cases hrender : rule.render with
      | error fault => exact ⟨fault, rfl⟩
      | ok text =>
          -- a text was rendered, so every junction has a part
          have hspeaks := Formula.filled_of_render hspoken (Rule.render_eq_ok.1 hrender)
          exact absurd hsilent ((Predicate.speaks_iff_of_resolve hrule).1 hspeaks)
  · exact Rule.isBlank_of_render (Predicate.filled_of_resolve hrule) htext

end SecurityRules
