/-
  SecurityRules.Proofs.Formula.Fold
  ────────────────────────────────
  **FOLDING TREES.**

  What is said of a tree part by part is a `fold`: a value for each leaf and,
  for each node, a function of its connective and of what its parts give.  A
  node contains a list of parts, so a definition by recursion needs a second
  function for lists, and a proof a second motive; both are written here once.

    * `Formula.fold_node` — a fold maps over the parts of a node;
    * `Formula.induct` — what holds of a node when it holds of its parts holds
      of every tree;
    * `Formula.Filled` — every node has enough parts, and every leaf has a
      property.
-/
import SecurityRules.Formula.Basic

namespace SecurityRules

namespace Formula

variable {α β : Type}

/-! ## §1. Folds and induction. -/

mutual

/-- What `leaf` and `node` make of a tree, from the leaves upwards. -/
def fold (leaf : α → β) (node : Connective → List β → β) : Formula α → β
  | .leaf a => leaf a
  | .node c parts => node c (foldAll leaf node parts)

/-- The values of the parts of a node, in order. -/
def foldAll (leaf : α → β) (node : Connective → List β → β) : List (Formula α) → List β
  | [] => []
  | part :: parts => fold leaf node part :: foldAll leaf node parts

end

variable (leaf : α → β) (node : Connective → List β → β)

/-- The parts are folded one by one. -/
theorem foldAll_eq_map (parts : List (Formula α)) :
    foldAll leaf node parts = parts.map (fold leaf node) := by
  induction parts with
  | nil => rfl
  | cons part parts ih => rw [foldAll, ih, List.map_cons]

@[simp] theorem fold_leaf (a : α) : fold leaf node (.leaf a) = leaf a := rfl

@[simp] theorem fold_node (c : Connective) (parts : List (Formula α)) :
    fold leaf node (.node c parts) = node c (parts.map (fold leaf node)) := by
  rw [fold, foldAll_eq_map]

variable {leaf node}

/-- **Induction over trees**: a property of every leaf that passes from the
parts to the node holds of every tree. -/
@[elab_as_elim]
theorem induct {P : Formula α → Prop} (leaf : ∀ a, P (.leaf a))
    (node : ∀ c parts, (∀ part ∈ parts, P part) → P (.node c parts)) (f : Formula α) : P f := by
  refine @Formula.rec α P (fun parts => ∀ part ∈ parts, P part) leaf node ?_ ?_ f
  · intro part hpart
    exact absurd hpart List.not_mem_nil
  · intro part parts hpart hparts q hq
    rcases List.mem_cons.1 hq with rfl | hq
    · exact hpart
    · exact hparts q hq

/-! ## §2. Replacing leaves. -/

/-- The tree with each leaf replaced. -/
def map (g : α → β) : Formula α → Formula β :=
  fold (fun a => .leaf (g a)) .node

@[simp] theorem map_leaf (g : α → β) (a : α) : map g (.leaf a) = .leaf (g a) := rfl

@[simp] theorem map_node (g : α → β) (c : Connective) (parts : List (Formula α)) :
    map g (.node c parts) = .node c (parts.map (map g)) :=
  fold_node _ _ c parts

/-- Leaves may be replaced twice or once. -/
theorem map_map {γ : Type} (g : α → β) (h : β → γ) (f : Formula α) :
    map h (map g f) = map (fun a => h (g a)) f := by
  induction f using Formula.induct with
  | leaf a => rfl
  | node c parts ih =>
      rw [map_node, map_node, map_node, List.map_map]
      exact congrArg _ (List.map_congr_left ih)

/-- Replacing each leaf by itself changes nothing. -/
theorem map_id (f : Formula α) : map id f = f := by
  induction f using Formula.induct with
  | leaf a => rfl
  | node c parts ih =>
      have hparts : parts.map (map id) = parts.map id := List.map_congr_left ih
      rw [map_node, hparts, List.map_id]

/-- The connectives and the nesting of a tree, whatever its leaves are. -/
def shape : Formula α → Formula Unit :=
  map fun _ => ()

/-- The shape of a tree does not depend on its leaves. -/
theorem shape_map (g : α → β) (f : Formula α) : (f.map g).shape = f.shape :=
  map_map g (fun _ => ()) f

/-- The leaves of a tree, in order. -/
def leaves : Formula α → List α :=
  fold (fun a => [a]) fun _ parts => parts.flatten

/-- The leaves of a junction are those of its parts, in order. -/
theorem leaves_node (c : Connective) (parts : List (Formula α)) :
    leaves (.node c parts) = (parts.map leaves).flatten :=
  fold_node _ _ c parts

/-- A part may be read as a tree of its own before or after its leaves are
forgotten. -/
theorem shape_toJunction (f : Formula α) :
    f.toJunction.toFormula.shape = f.shape.toJunction.toFormula := by
  cases f with
  | leaf a => rfl
  | node c parts => rfl

/-- Read as a tree of its own a part keeps its leaves. -/
theorem leaves_toJunction (f : Formula α) : f.toJunction.toFormula.leaves = f.leaves := by
  cases f with
  | leaf a => rfl
  | node c parts => rfl

/-! ## §3. Trees with enough parts. -/

/-- Whether every node has at least `n` parts and every leaf has the property
`P`. -/
inductive Filled (P : α → Prop) (n : Nat) : Formula α → Prop where
  | leaf {a : α} (h : P a) : Filled P n (.leaf a)
  | node {c : Connective} {parts : List (Formula α)} (hlen : n ≤ parts.length)
      (hparts : ∀ part ∈ parts, Filled P n part) : Filled P n (.node c parts)

/-- Fewer parts and less about the leaves may be asked for. -/
theorem Filled.mono {P Q : α → Prop} {n m : Nat} (hPQ : ∀ a, P a → Q a) (hmn : m ≤ n)
    {f : Formula α} (h : f.Filled P n) : f.Filled Q m := by
  induction h with
  | leaf h => exact .leaf (hPQ _ h)
  | node hlen _ ih => exact .node (by omega) ih

/-- What holds of all leaves can be asked for besides. -/
theorem Filled.and_leaves {P Q : α → Prop} {n : Nat} {f : Formula α} (h : f.Filled P n)
    (hQ : ∀ a ∈ f.leaves, Q a) : f.Filled (fun a => P a ∧ Q a) n := by
  induction h with
  | @leaf a h => exact .leaf ⟨h, hQ a List.mem_cons_self⟩
  | @node c parts hlen _ ih =>
      refine .node hlen fun part hpart => ih part hpart fun a ha => hQ a ?_
      rw [leaves_node]
      exact List.mem_flatten.2 ⟨part.leaves, List.mem_map_of_mem hpart, ha⟩

/-- What is asked for holds of all leaves. -/
theorem Filled.forall_leaves {P : α → Prop} {n : Nat} {f : Formula α} (h : f.Filled P n) :
    ∀ a ∈ f.leaves, P a := by
  induction h with
  | leaf h => exact List.forall_mem_singleton.2 h
  | node _ _ ih =>
      intro a ha
      rw [leaves_node, List.mem_flatten] at ha
      obtain ⟨leaves, hleaves, ha⟩ := ha
      obtain ⟨part, hpart, rfl⟩ := List.mem_map.1 hleaves
      exact ih part hpart a ha

/-- What every leaf has the leaves of each part have. -/
theorem filled_of_leaves {P : α → Prop} {f : Formula α} (h : ∀ a ∈ f.leaves, P a) :
    f.Filled P 0 := by
  induction f using Formula.induct with
  | leaf a => exact .leaf (h a List.mem_cons_self)
  | node c parts ih =>
      refine .node (Nat.zero_le _) fun part hpart => ih part hpart fun a ha => h a ?_
      rw [leaves_node]
      exact List.mem_flatten.2 ⟨part.leaves, List.mem_map_of_mem hpart, ha⟩

/-- What holds of what leaves become holds of the tree that they make. -/
theorem Filled.map {P : β → Prop} {g : α → β} {n : Nat} {f : Formula α}
    (h : f.Filled (fun a => P (g a)) n) : (f.map g).Filled P n := by
  induction h with
  | leaf h => exact .leaf h
  | @node c parts hlen _ ih =>
      rw [map_node]
      refine .node (by rw [List.length_map]; exact hlen) fun part hpart => ?_
      obtain ⟨part, hmem, rfl⟩ := List.mem_map.1 hpart
      exact ih part hmem

/-- A part that is put behind the others only makes them more. -/
theorem Filled.push {P : α → Prop} {n : Nat} {j : Junction α} {part : Formula α}
    (hj : j.toFormula.Filled P n) (hpart : part.Filled P n) :
    (j.push part).toFormula.Filled P n := by
  cases hj with
  | node hlen hparts =>
      refine .node ?_ fun q hq => ?_
      · rw [Junction.push_parts, List.length_append]
        omega
      · rw [Junction.push_parts] at hq
        rcases List.mem_append.1 hq with hq | hq
        · exact hparts q hq
        · rw [List.mem_singleton.1 hq]
          exact hpart

/-- What each leaf has can be chosen for all of them. -/
theorem Filled.exists_choice [Nonempty β] {R : α → β → Prop} {n : Nat} {f : Formula α}
    (h : f.Filled (fun a => ∃ b, R a b) n) :
    ∃ g : α → β, f.Filled (fun a => R a (g a)) n :=
  ⟨fun a => Classical.epsilon (R a),
    h.mono (fun _ ha => Classical.epsilon_spec ha) (Nat.le_refl n)⟩

/-- Gathered parts are enough when there are enough of them, or only one. -/
theorem Filled.gather {P : α → Prop} {n : Nat} (c : Connective) {parts : List (Formula α)}
    (hlen : parts.length = 1 ∨ n ≤ parts.length) (hparts : ∀ part ∈ parts, part.Filled P n) :
    (c.gather parts).Filled P n := by
  match parts with
  | [] => exact .node (by simpa using hlen) hparts
  | [part] => exact hparts part List.mem_cons_self
  | part :: next :: parts => exact .node (by simpa using hlen) hparts

end Formula

end SecurityRules
