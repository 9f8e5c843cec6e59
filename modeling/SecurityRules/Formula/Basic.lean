/-
  SecurityRules.Formula.Basic
  ────────────────────────────────
  **AND/OR TREES.**

  Both halves of the library work on trees of one kind: a predicate is such a
  tree over literals and conditions, a resolved rule is one over expression
  texts.  A tree proper is a `Junction`, some parts joined by one connective;
  a part is a `Formula`, either a leaf or again a junction.

    * `Junction.traverse` replaces the leaves of a tree, may drop a leaf, and
      stops at the first leaf that fails, in the order of reading;
    * equality of trees is structural and decidable.
-/

namespace SecurityRules

/-! ## §1. Connectives. -/

/-- How the parts of a tree are joined. -/
inductive Connective where
  /-- Every part has to hold. -/
  | all
  /-- Some part has to hold. -/
  | any
  deriving DecidableEq

/-- The word for a connective in the predicate shorthand. -/
def Connective.keyword : Connective → String
  | .all => "AND"
  | .any => "OR"

/-- The symbol for a connective in rendered rules. -/
def Connective.symbol : Connective → String
  | .all => "&&"
  | .any => "||"

/-! ## §2. Trees. -/

/-- A part of a tree: a leaf, or parts joined by a connective. -/
inductive Formula (α : Type) where
  | leaf (value : α)
  | node (connective : Connective) (parts : List (Formula α))

mutual

/-- Structural equality of parts is decidable. -/
def Formula.decideEq {α : Type} [DecidableEq α] : (a b : Formula α) → Decidable (a = b)
  | .leaf a, .leaf b => decidable_of_iff (a = b) (by simp)
  | .leaf _, .node _ _ => isFalse (by simp)
  | .node _ _, .leaf _ => isFalse (by simp)
  | .node c ps, .node d qs =>
      match decEq c d, Formula.decideEqAll ps qs with
      | isTrue hc, isTrue hp => isTrue (by rw [hc, hp])
      | isFalse hc, _ => isFalse (by simp [hc])
      | _, isFalse hp => isFalse (by simp [hp])

/-- Structural equality of lists of parts is decidable. -/
def Formula.decideEqAll {α : Type} [DecidableEq α] :
    (ps qs : List (Formula α)) → Decidable (ps = qs)
  | [], [] => isTrue rfl
  | [], _ :: _ => isFalse (by simp)
  | _ :: _, [] => isFalse (by simp)
  | p :: ps, q :: qs =>
      match Formula.decideEq p q, Formula.decideEqAll ps qs with
      | isTrue hp, isTrue hps => isTrue (by rw [hp, hps])
      | isFalse hp, _ => isFalse (by simp [hp])
      | _, isFalse hps => isFalse (by simp [hps])

end

instance {α : Type} [DecidableEq α] : DecidableEq (Formula α) :=
  Formula.decideEq

/-- Parts joined by one connective. A junction may have any number of parts,
also none or one. -/
structure Junction (α : Type) where
  connective : Connective
  parts : List (Formula α)
  deriving DecidableEq

namespace Junction

variable {α : Type}

/-- The junction as a part of a larger one. -/
def toFormula (j : Junction α) : Formula α :=
  .node j.connective j.parts

/-- The junction with one more part at its end. -/
def push (j : Junction α) (part : Formula α) : Junction α :=
  { j with parts := j.parts ++ [part] }

/-- A junction without parts. -/
def isEmpty (j : Junction α) : Bool :=
  j.parts.isEmpty

@[simp] theorem push_parts (j : Junction α) (part : Formula α) :
    (j.push part).parts = j.parts ++ [part] := rfl

end Junction

/-- A part read as a tree of its own: a junction is one already, a leaf is the
only thing that has to hold. -/
def Formula.toJunction {α : Type} : Formula α → Junction α
  | .leaf a => ⟨.all, [.leaf a]⟩
  | .node c ps => ⟨c, ps⟩

/-- Parts joined by a connective, where a single part needs none. -/
def Connective.gather {α : Type} (c : Connective) : List (Formula α) → Formula α
  | [part] => part
  | parts => .node c parts

/-! ## §3. Traversal. -/

section Traversal

variable {α β ε : Type}

mutual

/-- One part of a traversal; `none` where a leaf is dropped. -/
def Formula.traverse (f : α → Except ε (Option β)) :
    Formula α → Except ε (Option (Formula β))
  | .leaf a => (f a).map (Option.map Formula.leaf)
  | .node c ps => (Formula.traverseAll f ps).map fun qs => some (.node c qs)

/-- The parts that a traversal keeps, in order. -/
def Formula.traverseAll (f : α → Except ε (Option β)) :
    List (Formula α) → Except ε (List (Formula β))
  | [] => .ok []
  | p :: ps => do
      let kept ← Formula.traverse f p
      let rest ← Formula.traverseAll f ps
      return kept.toList ++ rest

end

/-- Replaces each leaf of a tree by what `f` makes of it, drops the leaf where
that is `none`, and stops at the first failure from left to right. The
connectives and the nesting stay, so a junction may lose all its parts. -/
def Junction.traverse (f : α → Except ε (Option β)) (j : Junction α) :
    Except ε (Junction β) :=
  (Formula.traverseAll f j.parts).map fun parts => ⟨j.connective, parts⟩

end Traversal

end SecurityRules
