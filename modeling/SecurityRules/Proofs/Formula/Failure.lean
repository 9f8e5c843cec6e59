/-
  SecurityRules.Proofs.Formula.Failure
  ────────────────────────────────
  **WHICH FAULT A TREE LEAVES.**

  Results are put together from left to right, and the first fault ends the
  whole.  `faultOf` keeps the fault of a result and forgets the rest; a result
  that is made of several then leaves the first fault among theirs.

    * `Formula.faultOf_traverse` — a traversal leaves the first fault among the
      leaves;
    * `Formula.raises_render` — rendering leaves no fault but `Fault.emptyRule`;
    * `Formula.exists_render` — where no junction is without parts and no leaf
      is blank it leaves none.
-/
import SecurityRules.Proofs.Formula.Rendering

namespace SecurityRules

variable {ε α β γ : Type}

namespace Formula

/-! ## §1. Traversals. -/

variable {f : α → Except ε (Option β)}

/-- The first part that fails decides. -/
theorem faultOf_traverseAll_cons (f : α → Except ε (Option β)) (part : Formula α)
    (parts : List (Formula α)) :
    faultOf (traverseAll f (part :: parts))
      = (faultOf (traverse f part)).or (faultOf (traverseAll f parts)) := by
  rw [traverseAll]
  exact faultOf_bind_bind _ _ _

/-- Parts leave the fault of the first leaf that fails, if each of them does. -/
theorem faultOf_traverseAll {parts : List (Formula α)}
    (h : ∀ part ∈ parts, faultOf (traverse f part) = part.leaves.findSome? fun a => faultOf (f a)) :
    faultOf (traverseAll f parts)
      = (parts.map leaves).flatten.findSome? fun a => faultOf (f a) := by
  induction parts with
  | nil => rfl
  | cons part parts ih =>
      obtain ⟨hpart, hparts⟩ := List.forall_mem_cons.1 h
      rw [faultOf_traverseAll_cons, hpart, ih hparts, List.map_cons, List.flatten_cons,
        List.findSome?_append]

/-- **A traversal leaves the first fault among the leaves**, in the order of
reading. -/
theorem faultOf_traverse (f : α → Except ε (Option β)) (t : Formula α) :
    faultOf (traverse f t) = t.leaves.findSome? fun a => faultOf (f a) := by
  induction t using Formula.induct with
  | leaf a =>
      show _ = [a].findSome? _
      rw [traverse, faultOf_map, List.findSome?_singleton]
  | node c parts ih => rw [traverse, faultOf_map, leaves_node, faultOf_traverseAll ih]

end Formula

/-- **A traversal leaves the fault of the first leaf that fails.** -/
theorem Junction.faultOf_traverse (f : α → Except ε (Option β)) (j : Junction α) :
    faultOf (j.traverse f) = j.toFormula.leaves.findSome? fun a => faultOf (f a) := by
  rw [← Formula.faultOf_traverse, Junction.traverse, Junction.toFormula, Formula.traverse,
    faultOf_map, faultOf_map]

/-! ## §2. Rendering. -/

/-- The fault of a rule without conditions. -/
theorem Connective.raises_enclose (c : Connective) (texts : List String) :
    Raises (· = .emptyRule) (c.enclose texts) := by
  match texts with
  | [] => exact raises_error rfl
  | [text] => exact raises_ok _
  | text :: next :: texts => exact raises_ok _

/-- A connective only refuses to join no parts at all. -/
theorem Connective.exists_enclose (c : Connective) {texts : List String} (h : texts ≠ []) :
    ∃ text, c.enclose texts = .ok text := by
  match texts with
  | [] => exact absurd rfl h
  | [text] => exact ⟨_, rfl⟩
  | text :: next :: texts => exact ⟨_, rfl⟩

namespace Formula

/-- Parts fail as asked for where each of them does. -/
theorem raises_renderAll {P : Fault → Prop} {parts : List (Formula String)}
    (h : ∀ part ∈ parts, Raises P (render part)) : Raises P (renderAll parts) := by
  induction parts with
  | nil => exact raises_ok _
  | cons part parts ih =>
      obtain ⟨hpart, hparts⟩ := List.forall_mem_cons.1 h
      rw [renderAll]
      exact hpart.bind fun _ => (ih hparts).bind fun _ => raises_ok _

/-- **Rendering leaves no fault but that of a rule without conditions.** -/
theorem raises_render (r : Formula String) : Raises (· = .emptyRule) (render r) := by
  induction r using Formula.induct with
  | leaf expression => exact raises_ok _
  | node c parts ih =>
      rw [render]
      exact (raises_renderAll ih).bind fun texts =>
        (c.raises_enclose texts).bind fun _ => raises_ok _

/-- Where every part has a text there are as many texts as parts. -/
theorem exists_renderAll {parts : List (Formula String)}
    (h : ∀ part ∈ parts, ∃ text, render part = .ok (some text)) :
    ∃ texts, renderAll parts = .ok texts ∧ texts.length = parts.length := by
  induction parts with
  | nil => exact ⟨[], rfl, rfl⟩
  | cons part parts ih =>
      obtain ⟨⟨text, htext⟩, hparts⟩ := List.forall_mem_cons.1 h
      obtain ⟨texts, htexts, hlen⟩ := ih hparts
      refine ⟨text :: texts, renderAll_cons_eq_ok.2 ⟨some text, texts, htext, htexts, rfl⟩, ?_⟩
      rw [List.length_cons, List.length_cons, hlen]

/-- Whether no junction in a part is without parts and no leaf is blank. -/
abbrev Speaks (r : Formula String) : Prop :=
  r.Filled (fun text => Text.isBlank text = false) 1

/-- **A part without empty junctions and blank leaves has a text.** -/
theorem exists_render {r : Formula String} (h : r.Speaks) :
    ∃ text, render r = .ok (some text) := by
  induction h with
  | @leaf expression hexpr => exact ⟨expression, by rw [render, hexpr]; rfl⟩
  | @node c parts hlen _ ih =>
      obtain ⟨texts, htexts, hsame⟩ := exists_renderAll ih
      have hne : texts ≠ [] := List.ne_nil_of_length_pos (by omega)
      obtain ⟨text, htext⟩ := c.exists_enclose hne
      exact ⟨text, render_node_eq_ok.2 ⟨texts, htexts, htext⟩⟩

end Formula

/-- Rendering a rule leaves no fault but that of a rule without conditions. -/
theorem Rule.raises_render (rule : Rule) : Raises (· = .emptyRule) rule.render :=
  (Formula.raises_renderAll fun part _ => part.raises_render).bind fun _ =>
    Connective.raises_enclose _ _

/-- A rule without empty junctions and blank leaves has a text. -/
theorem Rule.exists_render {rule : Rule} (h : rule.toFormula.Speaks) :
    ∃ text, rule.render = .ok text := by
  obtain ⟨text, htext⟩ := Formula.exists_render h
  exact ⟨text, Rule.render_eq_ok.2 htext⟩

end SecurityRules
