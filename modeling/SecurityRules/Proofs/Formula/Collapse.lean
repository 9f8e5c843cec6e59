/-
  SecurityRules.Proofs.Formula.Collapse
  ────────────────────────────────
  **JUNCTIONS OF ONE PART.**

  A junction of one part says what this part says.  Collapsing a tree replaces
  every such junction by its part.  Two things do not notice it:

    * a traversal that drops no leaf — it stops at the same leaf, and what it
      makes of the collapsed tree is the collapsed tree of what it makes
      (`Formula.traverse_collapse`);
    * rendering, as long as no leaf is blank (`Formula.render_collapse`).

  A leaf that is dropped would make a difference: its junction loses a part.

  Main statement: a predicate renders as its collapsed form does
  (`Predicate.renderIn_collapse`).
-/
import SecurityRules.Predicate.Resolution
import SecurityRules.Proofs.Formula.Fold
import SecurityRules.Proofs.Result

namespace SecurityRules

namespace Formula

variable {α β ε : Type}

/-! ## §1. Collapsing. -/

/-- The tree with every node of one part replaced by this part. -/
def collapse : Formula α → Formula α :=
  fold .leaf Connective.gather

theorem collapse_node (c : Connective) (parts : List (Formula α)) :
    collapse (.node c parts) = c.gather (parts.map collapse) :=
  fold_node _ _ c parts

/-- Only a single part stands without its connective. -/
theorem gather_of_two_le (c : Connective) {parts : List (Formula α)} (h : parts.length ≠ 1) :
    c.gather parts = .node c parts := by
  match parts with
  | [] => rfl
  | [part] => exact absurd rfl h
  | part :: next :: parts => rfl

/-- A tree without a node of one part is collapsed already. -/
theorem collapse_of_filled {P : α → Prop} {f : Formula α} (h : f.Filled P 2) :
    f.collapse = f := by
  induction h with
  | leaf h => rfl
  | @node c parts hlen _ ih =>
      have hparts : parts.map collapse = parts := by
        rw [List.map_congr_left ih, List.map_id']
      rw [collapse_node, hparts]
      exact gather_of_two_le c (by omega)

/-- Collapsing takes junctions away and keeps the leaves. -/
theorem Filled.collapse {P : α → Prop} {f : Formula α} (h : f.Filled P 0) :
    f.collapse.Filled P 0 := by
  induction h with
  | leaf h => exact .leaf h
  | node hlen _ ih =>
      rw [collapse_node]
      refine Filled.gather _ (.inr (Nat.zero_le _)) fun part hpart => ?_
      obtain ⟨part, hmem, rfl⟩ := List.mem_map.1 hpart
      exact ih part hmem

/-- No node of one part is left, if no node was without parts before. -/
theorem Filled.collapse_of_one {P : α → Prop} {f : Formula α} (h : f.Filled P 1) :
    f.collapse.Filled P 2 := by
  induction h with
  | leaf h => exact .leaf h
  | @node c parts hlen _ ih =>
      rw [collapse_node]
      refine Filled.gather c ?_ fun part hpart => ?_
      · rw [List.length_map]
        omega
      · obtain ⟨part, hmem, rfl⟩ := List.mem_map.1 hpart
        exact ih part hmem

/-- A leaf read as a tree of its own is a junction of one part. -/
theorem collapse_toJunction (f : Formula α) : f.toJunction.toFormula.collapse = f.collapse := by
  cases f with
  | leaf a => rfl
  | node c parts => rfl

theorem Filled.toJunction {P : α → Prop} {n : Nat} (hn : n ≤ 1) {f : Formula α}
    (h : f.Filled P n) : f.toJunction.toFormula.Filled P n := by
  cases h with
  | leaf h =>
      refine .node hn fun part hpart => ?_
      rw [List.mem_singleton.1 hpart]
      exact .leaf h
  | node hlen hparts => exact .node hlen hparts

/-! ## §2. Traversals that keep every leaf. -/

variable {f : α → Except ε (Option β)}

/-- The first fault stops a traversal of parts, and a dropped part leaves no
trace. -/
theorem traverseAll_cons (f : α → Except ε (Option β)) (part : Formula α)
    (parts : List (Formula α)) :
    traverseAll f (part :: parts)
      = (traverse f part).bind fun kept =>
          (traverseAll f parts).map fun rest => kept.toList ++ rest := rfl

/-- A leaf becomes what the function makes of it. -/
theorem traverse_leaf_eq_ok {a : α} {o : Option (Formula β)} :
    traverse f (.leaf a) = .ok o ↔ ∃ kept, f a = .ok kept ∧ kept.map Formula.leaf = o := by
  rw [traverse]
  cases f a <;> simp [Except.map]

/-- A junction is kept, with what becomes of its parts. -/
theorem traverse_node_eq_ok {c : Connective} {parts : List (Formula α)}
    {o : Option (Formula β)} :
    traverse f (.node c parts) = .ok o ↔
      ∃ qs, traverseAll f parts = .ok qs ∧ some (.node c qs) = o := by
  rw [traverse]
  cases traverseAll f parts <;> simp [Except.map]

/-- Parts are traversed from left to right, and there is a result where each of
them has one. -/
theorem traverseAll_cons_eq_ok {part : Formula α} {parts : List (Formula α)}
    {qs : List (Formula β)} :
    traverseAll f (part :: parts) = .ok qs ↔
      ∃ kept rest, traverse f part = .ok kept ∧ traverseAll f parts = .ok rest
        ∧ kept.toList ++ rest = qs := by
  rw [traverseAll_cons]
  cases traverse f part <;> cases traverseAll f parts <;> simp [Except.map, Except.bind]

/-- A part whose leaves are kept is kept. -/
theorem traverse_ne_none {n : Nat} {t : Formula α}
    (h : t.Filled (fun a => f a ≠ .ok none) n) : traverse f t ≠ .ok none := by
  intro hnone
  cases h with
  | leaf h =>
      obtain ⟨kept, hkept, hmap⟩ := traverse_leaf_eq_ok.1 hnone
      obtain rfl := Option.map_eq_none_iff.1 hmap
      exact h hkept
  | node _ _ =>
      obtain ⟨qs, -, hqs⟩ := traverse_node_eq_ok.1 hnone
      cases hqs

/-- Where every part is kept, what can be told of each part that is left can be
told of the part that it comes from. -/
theorem map_of_traverseAll {γ : Type} {F : Formula α → γ} {G : Formula β → γ}
    {parts : List (Formula α)} {qs : List (Formula β)}
    (hkeep : ∀ part ∈ parts, traverse f part ≠ .ok none)
    (heq : ∀ part ∈ parts, ∀ q, traverse f part = .ok (some q) → G q = F part)
    (h : traverseAll f parts = .ok qs) : qs.map G = parts.map F := by
  induction parts generalizing qs with
  | nil =>
      cases h
      rfl
  | cons part parts ih =>
      obtain ⟨kept, rest, hpart, hrest, rfl⟩ := traverseAll_cons_eq_ok.1 h
      have hmap := ih (fun p hp => hkeep p (List.mem_cons_of_mem _ hp))
        (fun p hp => heq p (List.mem_cons_of_mem _ hp)) hrest
      cases kept with
      | none => exact absurd hpart (hkeep part List.mem_cons_self)
      | some q =>
          show (q :: rest).map G = _
          rw [List.map_cons, List.map_cons, hmap, heq part List.mem_cons_self q hpart]

/-- Where no part is dropped there are as many as before. -/
theorem length_of_traverseAll {parts : List (Formula α)} {qs : List (Formula β)}
    (hkeep : ∀ part ∈ parts, traverse f part ≠ .ok none)
    (h : traverseAll f parts = .ok qs) : qs.length = parts.length := by
  have hmap := map_of_traverseAll (F := fun _ => ()) (G := fun _ => ()) hkeep
    (fun _ _ _ _ => rfl) h
  rw [← List.length_map (fun _ => ()), hmap, List.length_map]

/-- Whatever a traversal leaves was a part of the tree. -/
theorem exists_of_mem_traverseAll {parts : List (Formula α)} {qs : List (Formula β)}
    (h : traverseAll f parts = .ok qs) {q : Formula β} (hq : q ∈ qs) :
    ∃ part ∈ parts, traverse f part = .ok (some q) := by
  induction parts generalizing qs with
  | nil =>
      cases h
      exact absurd hq List.not_mem_nil
  | cons part parts ih =>
      obtain ⟨kept, rest, hpart, hrest, rfl⟩ := traverseAll_cons_eq_ok.1 h
      rcases List.mem_append.1 hq with hq | hq
      · obtain rfl := Option.mem_toList.1 hq
        exact ⟨part, List.mem_cons_self, hpart⟩
      · obtain ⟨p, hp, hq⟩ := ih hrest hq
        exact ⟨p, List.mem_cons_of_mem _ hp, hq⟩

/-- Parts that may be collapsed before or after the traversal may be so side by
side. -/
theorem traverseAll_collapse {parts : List (Formula α)}
    (h : ∀ part ∈ parts,
      traverse f part.collapse = (traverse f part).map (Option.map Formula.collapse)) :
    traverseAll f (parts.map collapse) = (traverseAll f parts).map (List.map collapse) := by
  induction parts with
  | nil => rfl
  | cons part parts ih =>
      have hpart := h part List.mem_cons_self
      have hrest := ih fun p hp => h p (List.mem_cons_of_mem _ hp)
      rw [List.map_cons, traverseAll_cons, traverseAll_cons, hpart, hrest]
      cases traverse f part with
      | error e => rfl
      | ok kept =>
          cases traverseAll f parts with
          | error e => rfl
          | ok rest => cases kept <;> rfl

/-- **A traversal that keeps every leaf does not notice collapsing.** -/
theorem traverse_collapse {n : Nat} {t : Formula α}
    (h : t.Filled (fun a => f a ≠ .ok none) n) :
    traverse f t.collapse = (traverse f t).map (Option.map Formula.collapse) := by
  induction h with
  | @leaf a h =>
      show traverse f (.leaf a) = _
      rw [traverse]
      cases f a with
      | error e => rfl
      | ok o => cases o <;> rfl
  | @node c parts hlen hparts ih =>
      have hall := traverseAll_collapse ih
      have hkeep : ∀ part ∈ parts, traverse f part ≠ .ok none :=
        fun part hpart => traverse_ne_none (hparts part hpart)
      rw [collapse_node]
      by_cases hone : parts.length = 1
      · -- the node disappears, and its part has not been dropped
        obtain ⟨part, rfl⟩ := List.length_eq_one_iff.1 hone
        show traverse f part.collapse = _
        rw [ih part List.mem_cons_self, traverse, traverseAll_cons]
        cases hpart : traverse f part with
        | error e => rfl
        | ok kept =>
            cases kept with
            | none => exact absurd hpart (hkeep part List.mem_cons_self)
            | some q => rfl
      · rw [gather_of_two_le c (by rwa [List.length_map]), traverse, hall, traverse]
        cases hqs : traverseAll f parts with
        | error e => rfl
        | ok qs =>
            -- as many parts are left, so the node stays on both sides
            have hlen := length_of_traverseAll hkeep hqs
            show Except.ok (some (node c (qs.map collapse)))
              = .ok (some (collapse (node c qs)))
            rw [collapse_node, gather_of_two_le c (by rw [List.length_map, hlen]; exact hone)]

/-- What a traversal leaves has the property that it gives to each leaf. -/
theorem Filled.traverse {P : β → Prop} {n : Nat} {t : Formula α}
    (h : t.Filled (fun a => f a ≠ .ok none ∧ ∀ b, f a = .ok (some b) → P b) n) {u : Formula β}
    (hu : Formula.traverse f t = .ok (some u)) : u.Filled P n := by
  induction h generalizing u with
  | @leaf a h =>
      obtain ⟨kept, hkept, hmap⟩ := traverse_leaf_eq_ok.1 hu
      obtain ⟨b, rfl, rfl⟩ := Option.map_eq_some_iff.1 hmap
      exact .leaf (h.2 b hkept)
  | @node c parts hlen hparts ih =>
      obtain ⟨qs, hqs, hnode⟩ := traverse_node_eq_ok.1 hu
      cases hnode
      have hkeep : ∀ part ∈ parts, Formula.traverse f part ≠ .ok none :=
        fun part hpart =>
          traverse_ne_none ((hparts part hpart).mono (fun _ ha => ha.1) (Nat.le_refl n))
      refine .node (by rw [length_of_traverseAll hkeep hqs]; exact hlen) fun q hq => ?_
      obtain ⟨part, hpart, hq⟩ := exists_of_mem_traverseAll hqs hq
      exact ih part hpart hq

/-- A traversal that keeps every leaf keeps the shape. -/
theorem shape_traverse {n : Nat} {t : Formula α} (h : t.Filled (fun a => f a ≠ .ok none) n)
    {u : Formula β} (hu : traverse f t = .ok (some u)) : u.shape = t.shape := by
  induction h generalizing u with
  | leaf h =>
      obtain ⟨kept, -, hmap⟩ := traverse_leaf_eq_ok.1 hu
      obtain ⟨b, -, rfl⟩ := Option.map_eq_some_iff.1 hmap
      rfl
  | @node c parts _ hparts ih =>
      obtain ⟨qs, hqs, hnode⟩ := traverse_node_eq_ok.1 hu
      cases hnode
      have hkeep : ∀ part ∈ parts, traverse f part ≠ .ok none :=
        fun part hpart => traverse_ne_none (hparts part hpart)
      rw [shape, map_node, shape, map_node]
      exact congrArg _ (map_of_traverseAll hkeep (fun part hpart q hq => ih part hpart hq) hqs)

theorem traverseAll_map {g : β → α} {parts : List (Formula β)}
    (h : ∀ part ∈ parts, traverse f (part.map g) = .ok (some part)) :
    traverseAll f (parts.map (map g)) = .ok parts := by
  induction parts with
  | nil => rfl
  | cons part parts ih =>
      rw [List.map_cons, traverseAll_cons, h part List.mem_cons_self,
        ih fun p hp => h p (List.mem_cons_of_mem _ hp)]
      rfl

/-- A traversal that undoes `g` on every leaf undoes it on the tree. -/
theorem traverse_map {g : β → α} {n : Nat} {t : Formula β}
    (h : t.Filled (fun b => f (g b) = .ok (some b)) n) :
    traverse f (t.map g) = .ok (some t) := by
  induction h with
  | leaf h =>
      rw [map_leaf, traverse, h]
      rfl
  | @node c parts _ _ ih =>
      rw [map_node, traverse, traverseAll_map ih]
      rfl

end Formula

/-- A part that is read as a tree of its own is traversed as it is. -/
theorem Junction.traverse_toJunction {α β ε : Type} {f : α → Except ε (Option β)}
    {t : Formula α} {u : Formula β} (h : Formula.traverse f t = .ok (some u)) :
    t.toJunction.traverse f = .ok u.toJunction := by
  cases t with
  | leaf a =>
      obtain ⟨kept, hkept, hmap⟩ := Formula.traverse_leaf_eq_ok.1 h
      obtain ⟨b, rfl, rfl⟩ := Option.map_eq_some_iff.1 hmap
      show (Formula.traverseAll f [.leaf a]).map _ = _
      rw [Formula.traverseAll_cons, Formula.traverse, hkept]
      rfl
  | node c parts =>
      obtain ⟨qs, hqs, hnode⟩ := Formula.traverse_node_eq_ok.1 h
      cases hnode
      show (Formula.traverseAll f parts).map _ = _
      rw [hqs]
      rfl

/-! ## §3. Rendering. -/

/-- Two or more texts share one pair of parentheses. -/
theorem Connective.enclose_of_two_le (c : Connective) {texts : List String}
    (h : 2 ≤ texts.length) :
    c.enclose texts = .ok ("(" ++ (" " ++ c.symbol ++ " ").intercalate texts ++ ")") := by
  match texts with
  | [] => exact absurd h (by simp)
  | [text] => exact absurd h (by simp)
  | text :: next :: texts => rfl

namespace Formula

theorem renderAll_cons (part : Formula String) (parts : List (Formula String)) :
    renderAll (part :: parts)
      = (render part).bind fun text =>
          (renderAll parts).map fun texts => text.toList ++ texts := rfl

theorem render_node (c : Connective) (parts : List (Formula String)) :
    render (.node c parts) = ((renderAll parts).bind c.enclose).map some := by
  rw [render]
  cases renderAll parts <;> rfl

/-- The text of a junction is that of its parts, enclosed by its connective. -/
theorem render_node_eq_ok {c : Connective} {parts : List (Formula String)} {text : String} :
    render (.node c parts) = .ok (some text) ↔
      ∃ texts, renderAll parts = .ok texts ∧ c.enclose texts = .ok text := by
  rw [render_node]
  cases renderAll parts with
  | error e => simp [Except.bind, Except.map]
  | ok texts => cases he : c.enclose texts <;> simp [Except.bind, Except.map, he]

/-- A junction that renders has a text: only a leaf may leave none. -/
theorem exists_of_render_node {c : Connective} {parts : List (Formula String)}
    {o : Option String} (h : render (.node c parts) = .ok o) : ∃ text, o = some text := by
  rw [render_node] at h
  obtain ⟨text, -, rfl⟩ := Except.map_eq_ok.1 h
  exact ⟨text, rfl⟩

/-- The texts of parts are put one behind the other; a blank part leaves none.
-/
theorem renderAll_cons_eq_ok {part : Formula String} {parts : List (Formula String)}
    {texts : List String} :
    renderAll (part :: parts) = .ok texts ↔
      ∃ kept rest, render part = .ok kept ∧ renderAll parts = .ok rest
        ∧ kept.toList ++ rest = texts := by
  rw [renderAll_cons]
  cases render part <;> cases renderAll parts <;> simp [Except.map, Except.bind]

/-- A part without blank leaves is never dropped. -/
theorem render_ne_none {r : Formula String}
    (h : r.Filled (fun text => Text.isBlank text = false) 0) : render r ≠ .ok none := by
  intro hnone
  cases h with
  | leaf h =>
      rw [render, h] at hnone
      cases hnone
  | @node c parts _ _ =>
      obtain ⟨text, htext⟩ := exists_of_render_node hnone
      cases htext

/-- Where no part is dropped, what can be told of the text of each part can be
told of the part. -/
theorem map_of_renderAll {γ : Type} {F : Formula String → γ} {G : String → γ}
    {parts : List (Formula String)} {texts : List String}
    (hkeep : ∀ part ∈ parts, render part ≠ .ok none)
    (heq : ∀ part ∈ parts, ∀ text, render part = .ok (some text) → G text = F part)
    (h : renderAll parts = .ok texts) : texts.map G = parts.map F := by
  induction parts generalizing texts with
  | nil =>
      cases h
      rfl
  | cons part parts ih =>
      obtain ⟨kept, rest, hpart, hrest, rfl⟩ := renderAll_cons_eq_ok.1 h
      have hmap := ih (fun p hp => hkeep p (List.mem_cons_of_mem _ hp))
        (fun p hp => heq p (List.mem_cons_of_mem _ hp)) hrest
      cases kept with
      | none => exact absurd hpart (hkeep part List.mem_cons_self)
      | some text =>
          show (text :: rest).map G = _
          rw [List.map_cons, List.map_cons, hmap, heq part List.mem_cons_self text hpart]

/-- **Rendering does not notice collapsing** where no leaf is blank. -/
theorem render_collapse {r : Formula String}
    (h : r.Filled (fun text => Text.isBlank text = false) 0) : render r.collapse = render r := by
  induction h with
  | leaf h => rfl
  | @node c parts hlen hparts ih =>
      rw [collapse_node]
      by_cases hone : parts.length = 1
      · -- one text stands bare, with or without its node
        obtain ⟨part, rfl⟩ := List.length_eq_one_iff.1 hone
        show render part.collapse = _
        rw [ih part List.mem_cons_self, render_node, renderAll_cons]
        cases hpart : render part with
        | error e => rfl
        | ok text =>
            cases text with
            | none => exact absurd hpart (render_ne_none (hparts part List.mem_cons_self))
            | some text => rfl
      · have hall : renderAll (parts.map collapse) = renderAll parts := by
          clear hone hlen hparts
          induction parts with
          | nil => rfl
          | cons part parts ihp =>
              rw [List.map_cons, renderAll_cons, renderAll_cons, ih part List.mem_cons_self,
                ihp fun p hp => ih p (List.mem_cons_of_mem _ hp)]
        rw [gather_of_two_le c (by rwa [List.length_map]), render_node, render_node, hall]

end Formula

/-! ## §4. Predicates in a scope. -/

/-- Whether a clause is a blank literal, which says nothing. -/
def Clause.isBlank : Clause → Bool
  | .literal text => Text.isBlank text
  | .condition _ => false

/-- An operator is never blank, whatever it is applied to. -/
theorem Operator.isBlank_apply (op : Operator) (left right : String) :
    Text.isBlank (op.apply left right) = false := by
  have hword : Text.isBlank op.spelling = false := by cases op <;> decide +kernel
  have hnot : Text.isBlank "!(" = false := by decide +kernel
  have hin : Text.isBlank " in " = false := by decide +kernel
  have hany : Text.isBlank ".hasAny(" = false := by decide +kernel
  cases op <;> simp [apply, Text.isBlank_append, hword, hnot, hin, hany]

/-- Only a blank literal is dropped. -/
theorem Clause.resolve_ne_none {scope : Scope} {c : Clause} (h : c.isBlank = false) :
    c.resolve scope ≠ .ok none := by
  intro hnone
  cases c with
  | literal text =>
      rw [Clause.resolve, show Text.isBlank text = false from h] at hnone
      cases hnone
  | condition c =>
      obtain ⟨text, -, htext⟩ := Except.map_eq_ok.1 hnone
      cases htext

/-- An operand has an expression where it is a literal that says something, a
field that has one, or a lookup behind a field that has one. -/
theorem Operand.resolve_eq_ok {scope : Scope} {o : Operand} {text : String} :
    o.resolve scope = .ok text ↔
      (o = .literal text ∧ Text.isBlank text = false)
        ∨ (∃ r, o = .field r ∧ r.resolve scope = .ok text)
        ∨ ∃ via path place, o = .lookup via path ∧ path ≠ "" ∧ via.resolve scope = .ok place
            ∧ "get(" ++ place ++ ").data." ++ path = text := by
  cases o with
  | literal t =>
      rw [Operand.resolve]
      cases hblank : Text.isBlank t <;> grind
  | field r => simp [Operand.resolve]
  | lookup via path =>
      rw [Operand.resolve]
      constructor
      · intro h
        split at h
        · cases h
        · next hpath =>
            obtain ⟨place, hplace, htext⟩ := Except.map_eq_ok.1 h
            exact .inr (.inr ⟨via, path, place, rfl, hpath, hplace, htext⟩)
      · rintro (⟨heq, -⟩ | ⟨r, heq, -⟩ | ⟨_, _, place, heq, hpath, hplace, htext⟩)
        · cases heq
        · cases heq
        · cases heq
          rw [if_neg hpath, hplace]
          exact congrArg Except.ok htext

/-- Both sides of a condition have to be there. -/
theorem Condition.resolve_eq_ok {scope : Scope} {c : Condition} {text : String} :
    c.resolve scope = .ok text ↔
      ∃ left right, c.left.resolve scope = .ok left ∧ c.right.resolve scope = .ok right
        ∧ c.operator.apply left right = text := by
  rw [Condition.resolve]
  exact Except.bind_bind_eq_ok

/-- What is kept of a clause is a literal as it stands, or the expression for a
condition. -/
theorem Clause.resolve_eq_ok_some {scope : Scope} {c : Clause} {text : String} :
    c.resolve scope = .ok (some text) ↔
      (c = .literal text ∧ Text.isBlank text = false)
        ∨ ∃ d, c = .condition d ∧ d.resolve scope = .ok text := by
  cases c with
  | literal t =>
      rw [Clause.resolve]
      cases hblank : Text.isBlank t <;> grind
  | condition d =>
      rw [Clause.resolve]
      cases hd : d.resolve scope <;> simp [Except.map, hd]

/-- What is kept of a clause is no blank. -/
theorem Clause.isBlank_of_resolve {scope : Scope} {c : Clause} {text : String}
    (h : c.resolve scope = .ok (some text)) : Text.isBlank text = false := by
  rcases Clause.resolve_eq_ok_some.1 h with ⟨-, hblank⟩ | ⟨d, -, hd⟩
  · exact hblank
  · obtain ⟨left, right, -, -, rfl⟩ := Condition.resolve_eq_ok.1 hd
    exact d.operator.isBlank_apply left right

/-- The text of a term in a scope; `none` for a blank literal. -/
def Term.renderIn (scope : Scope) (t : Term) : Except Fault (Option String) :=
  (Formula.traverse (Clause.resolve scope) t).bind fun
    | some rule => rule.render
    | none => .ok none

/-- The text of a term in a scope is that of the rule that it becomes there. -/
theorem Term.renderIn_eq_ok_some {scope : Scope} {t : Term} {text : String} :
    Term.renderIn scope t = .ok (some text) ↔
      ∃ rule, Formula.traverse (Clause.resolve scope) t = .ok (some rule)
        ∧ rule.render = .ok (some text) := by
  rw [Term.renderIn]
  cases Formula.traverse (Clause.resolve scope) t with
  | error e => simp [Except.bind]
  | ok o => cases o <;> simp [Except.bind]

/-- A predicate renders as it does within a larger one. -/
theorem Predicate.renderIn_toFormula (scope : Scope) (p : Predicate) :
    Term.renderIn scope p.toFormula = (p.renderIn scope).map some := by
  show (((Formula.traverseAll (Clause.resolve scope) p.parts).map _).bind _) = _
  rw [Predicate.renderIn, Predicate.resolve, Junction.traverse]
  cases Formula.traverseAll (Clause.resolve scope) p.parts with
  | error e => rfl
  | ok parts =>
      show Formula.render (.node p.connective parts) = _
      rw [Formula.render]
      cases hparts : Formula.renderAll parts with
      | error e => simp [Rule.render, bind, Except.bind, Except.map, hparts]
      | ok texts =>
          simp only [Rule.render, bind, Except.bind, Except.map, hparts]
          cases p.connective.enclose texts <;> rfl

/-- A term renders as its collapsed form does. -/
theorem Term.renderIn_collapse (scope : Scope) {t : Term}
    (h : t.Filled (fun c => c.isBlank = false) 0) :
    Term.renderIn scope t.collapse = Term.renderIn scope t := by
  have hkeep : t.Filled (fun c => c.resolve scope ≠ .ok none) 0 :=
    h.mono (fun _ hc => Clause.resolve_ne_none hc) (Nat.le_refl 0)
  have hspeak : t.Filled (fun c => c.resolve scope ≠ .ok none
      ∧ ∀ text, c.resolve scope = .ok (some text) → Text.isBlank text = false) 0 :=
    h.mono (fun _ hc => ⟨Clause.resolve_ne_none hc, fun _ => Clause.isBlank_of_resolve⟩)
      (Nat.le_refl 0)
  rw [Term.renderIn, Term.renderIn, Formula.traverse_collapse hkeep]
  cases hr : Formula.traverse (Clause.resolve scope) t with
  | error e => rfl
  | ok o =>
      cases o with
      | none => rfl
      | some rule => exact Formula.render_collapse (hspeak.traverse hr)

/-- A term that is read as a predicate renders as it is. -/
theorem Predicate.renderIn_toJunction (scope : Scope) {t : Term}
    (h : t.Filled (fun c => c.isBlank = false) 0) :
    (Predicate.renderIn scope t.toJunction).map some = Term.renderIn scope t := by
  calc (Predicate.renderIn scope t.toJunction).map some
      = Term.renderIn scope t.toJunction.toFormula :=
        (Predicate.renderIn_toFormula scope t.toJunction).symm
    _ = Term.renderIn scope t.toJunction.toFormula.collapse :=
        (Term.renderIn_collapse scope (h.toJunction (Nat.zero_le 1))).symm
    _ = Term.renderIn scope t.collapse := by rw [Formula.collapse_toJunction]
    _ = Term.renderIn scope t := Term.renderIn_collapse scope h

/-- The predicate with every junction of one term replaced by this term. Where
a single clause remains, it becomes the only term. -/
def Predicate.collapse (p : Predicate) : Predicate :=
  p.toFormula.collapse.toJunction

/-- **A predicate renders as its collapsed form does**, in every scope and also
where it cannot be rendered. -/
theorem Predicate.renderIn_collapse (scope : Scope) {p : Predicate}
    (h : p.toFormula.Filled (fun c => c.isBlank = false) 0) :
    p.collapse.renderIn scope = p.renderIn scope := by
  refine Except.map_some_inj ?_
  calc (p.collapse.renderIn scope).map some
      = Term.renderIn scope p.toFormula.collapse := Predicate.renderIn_toJunction scope h.collapse
    _ = Term.renderIn scope p.toFormula := Term.renderIn_collapse scope h
    _ = (p.renderIn scope).map some := Predicate.renderIn_toFormula scope p

end SecurityRules
