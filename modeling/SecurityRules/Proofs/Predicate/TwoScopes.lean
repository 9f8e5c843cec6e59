/-
  SecurityRules.Proofs.Predicate.TwoScopes
  ────────────────────────────────
  **ONE PREDICATE IN TWO SCOPES.**

  The document of a scope only decides which texts stand for fields.  Whether a
  predicate can be resolved, which connectives and how much nesting are left, and
  whether the result can be rendered do not depend on it: two scopes that agree
  on whether a field owns the predicate leave the same fault.

    * `Formula.traverse_map_right` — what is made of the kept leaves can be made
      of them before or after a traversal;
    * `Formula.faultOf_render_congr` — trees of one shape without blank leaves
      leave the same fault when they are rendered;
    * `Predicate.shape_resolve_congr` — a predicate becomes trees of one shape.

  Main statement: `Predicate.faultOf_renderIn_congr`.
-/
import SecurityRules.Proofs.Predicate.Faults

namespace SecurityRules

/-! ## §1. Traversals. -/

namespace Formula

section Traversal

variable {α β γ ε : Type} {f : α → Except ε (Option β)}

/-- Leaves that are replaced after a traversal may be replaced during it, here
over the parts of a node. -/
theorem traverseAll_map_right {g : β → γ} {parts : List (Formula α)}
    (h : ∀ part ∈ parts, traverse (fun a => (f a).map (Option.map g)) part
      = (traverse f part).map (Option.map (map g))) :
    traverseAll (fun a => (f a).map (Option.map g)) parts
      = (traverseAll f parts).map (List.map (map g)) := by
  induction parts with
  | nil => rfl
  | cons part parts ih =>
      obtain ⟨hpart, hparts⟩ := List.forall_mem_cons.1 h
      rw [traverseAll_cons, traverseAll_cons, hpart, ih hparts]
      cases traverse f part with
      | error e => rfl
      | ok kept =>
          cases traverseAll f parts with
          | error e => rfl
          | ok rest => cases kept <;> rfl

/-- **What is made of the kept leaves** can be made of them before or after a
traversal. -/
theorem traverse_map_right (f : α → Except ε (Option β)) (g : β → γ) (t : Formula α) :
    traverse (fun a => (f a).map (Option.map g)) t
      = (traverse f t).map (Option.map (map g)) := by
  induction t using Formula.induct with
  | leaf a =>
      rw [traverse, traverse]
      cases f a with
      | error e => rfl
      | ok kept => cases kept <;> rfl
  | node c parts ih =>
      rw [traverse, traverse, traverseAll_map_right ih]
      cases traverseAll f parts with
      | error e => rfl
      | ok rest =>
          show Except.ok (some (node c (rest.map (map g)))) = .ok (some (map g (node c rest)))
          rw [map_node]

end Traversal

/-! ## §2. Rendering. -/

/-- Enough parts can be told from the shape. -/
theorem Filled.of_shape {α : Type} {P : α → Prop} {n : Nat} {t : Formula α}
    (ht : t.Filled P 0) (h : t.shape.Filled (fun _ => True) n) : t.Filled P n := by
  induction ht with
  | leaf ha => exact .leaf ha
  | @node c parts _ _ ih =>
      rw [shape, map_node] at h
      cases h with
      | node hlen hparts =>
          rw [List.length_map] at hlen
          exact .node hlen fun part hpart => ih part hpart (hparts _ (List.mem_map_of_mem hpart))

theorem Filled.shape {α : Type} {P : α → Prop} {n : Nat} {t : Formula α} (h : t.Filled P n) :
    t.shape.Filled (fun _ => True) n :=
  Filled.map (h.mono (fun _ _ => trivial) (Nat.le_refl n))

/-- **Trees of one shape leave the same fault** when they are rendered, if no leaf
is blank. -/
theorem faultOf_render_congr {r s : Formula String}
    (hr : r.Filled (fun text => Text.isBlank text = false) 0)
    (hs : s.Filled (fun text => Text.isBlank text = false) 0) (hshape : r.shape = s.shape) :
    faultOf r.render = faultOf s.render := by
  by_cases hspeaks : r.Speaks
  · have hother : s.Speaks := hs.of_shape (hshape ▸ hspeaks.shape)
    obtain ⟨text, htext⟩ := exists_render hspeaks
    obtain ⟨other, hothertext⟩ := exists_render hother
    rw [htext, hothertext]
    rfl
  · -- some node is without parts, in both trees
    have hother : ¬s.Speaks := fun h => hspeaks (hr.of_shape (hshape.symm ▸ h.shape))
    have hfails : ∀ {t : Formula String}, t.Filled (fun text => Text.isBlank text = false) 0 →
        ¬t.Speaks → faultOf t.render = some .emptyRule := by
      intro t ht hnot
      cases hrender : t.render with
      | ok o => exact absurd (filled_of_render ht hrender) hnot
      | error fault => rw [t.raises_render fault hrender]; rfl
    rw [hfails hr hspeaks, hfails hs hother]

end Formula

/-- A rule renders as it does within a larger one, also where it fails. -/
theorem Rule.map_some_render (rule : Rule) :
    rule.render.map some = Formula.render rule.toFormula :=
  (Formula.render_node rule.connective rule.parts).symm

theorem Rule.faultOf_render (rule : Rule) :
    faultOf rule.render = faultOf (Formula.render rule.toFormula) := by
  rw [← rule.map_some_render, faultOf_map]

/-! ## §3. Predicates. -/

/-- Whether a field owns what stands in either scope, or in neither. -/
def Scope.Alike (s t : Scope) : Prop :=
  s.owner.isSome = t.owner.isSome

variable {s t : Scope}

theorem Reference.faultIn_congr (h : s.Alike t) (r : Reference) : r.faultIn s = r.faultIn t := by
  cases r with
  | this =>
      unfold Scope.Alike at h
      rw [faultIn, faultIn, ← Option.not_isSome, ← Option.not_isSome, h]
  | named name => rfl

theorem Operand.faultIn_congr (h : s.Alike t) (o : Operand) : o.faultIn s = o.faultIn t := by
  cases o with
  | literal text => rfl
  | field reference => exact reference.faultIn_congr h
  | lookup via path => rw [faultIn, faultIn, via.faultIn_congr h]

theorem Clause.faultOf_resolve_congr (h : s.Alike t) (c : Clause) :
    faultOf (c.resolve s) = faultOf (c.resolve t) := by
  rw [c.faultOf_resolve, c.faultOf_resolve, funext (Operand.faultIn_congr h)]

/-- A clause is kept, dropped or at fault in both scopes. -/
theorem Clause.resolve_congr (h : s.Alike t) (c : Clause) :
    (c.resolve s).map (Option.map fun _ => ()) = (c.resolve t).map (Option.map fun _ => ()) := by
  have hfault := c.faultOf_resolve_congr h
  cases c with
  | literal text => rfl
  | condition c =>
      rw [Clause.resolve, Clause.resolve] at hfault ⊢
      cases hs : c.resolve s <;> cases ht : c.resolve t <;> rw [hs, ht] at hfault <;> cases hfault
      · rfl
      · rfl

/-- **A predicate becomes trees of one shape**, or leaves one fault. -/
theorem Predicate.shape_resolve_congr (h : s.Alike t) (p : Predicate) :
    (p.resolve s).map (fun rule => rule.toFormula.shape)
      = (p.resolve t).map fun rule => rule.toFormula.shape := by
  have hshape : ∀ u : Scope, (p.resolve u).map (fun rule => some rule.toFormula.shape)
      = Formula.traverse (fun c => (c.resolve u).map (Option.map fun _ => ())) p.toFormula := by
    intro u
    rw [Formula.traverse_map_right]
    show _ = ((Formula.traverseAll (Clause.resolve u) p.parts).map _).map _
    unfold Predicate.resolve Junction.traverse
    cases Formula.traverseAll (Clause.resolve u) p.parts <;> rfl
  have hleaves : (fun c => (Clause.resolve s c).map (Option.map fun _ => ()))
      = fun c => (Clause.resolve t c).map (Option.map fun _ => ()) :=
    funext (Clause.resolve_congr h)
  refine Except.map_some_inj ?_
  have hboth := (hshape s).trans ((congrArg (Formula.traverse · p.toFormula) hleaves).trans
    (hshape t).symm)
  cases hs : p.resolve s <;> cases ht : p.resolve t <;> rw [hs, ht] at hboth <;> exact hboth

/-- A predicate leaves the same fault in two scopes that are alike. -/
theorem Predicate.faultOf_resolve_congr (h : s.Alike t) (p : Predicate) :
    faultOf (p.resolve s) = faultOf (p.resolve t) := by
  rw [← faultOf_map (p.resolve s), p.shape_resolve_congr h, faultOf_map]

/-- **A predicate leaves the same fault in two scopes** that agree on whether a
field owns it, be it resolved or rendered as well. -/
theorem Predicate.faultOf_renderIn_congr (h : s.Alike t) (p : Predicate) :
    faultOf (p.renderIn s) = faultOf (p.renderIn t) := by
  have hshape := p.shape_resolve_congr h
  unfold Predicate.renderIn
  cases hs : p.resolve s <;> cases ht : p.resolve t <;> rw [hs, ht] at hshape
  · cases hshape
    rfl
  · cases hshape
  · cases hshape
  · next rule other =>
      show faultOf rule.render = faultOf other.render
      rw [rule.faultOf_render, other.faultOf_render]
      exact Formula.faultOf_render_congr (Predicate.filled_of_resolve hs)
        (Predicate.filled_of_resolve ht) (Except.ok.inj hshape)

end SecurityRules
