/-
  SecurityRules.Proofs.Shorthand.RoundTrip
  ────────────────────────────────
  **WRITING DOWN AND READING BACK.**

  Parentheses around every junction make a term of it, whatever stands in it,
  so the text of a tree is built from phrases of one term each.

    * `Phrase.groupOf` puts phrases into one pair of parentheses, joined by a
      connective;
    * `isTerm_treeText` — a tree whose leaves are phrases of one term is such a
      phrase itself, and means the collapsed tree;
    * `Predicate.exists_term_of_parse` — what is read is well spelled, and
      nothing in it can be collapsed.

  Main statement: a printable predicate is read back from its shorthand as its
  collapsed form, which renders as the predicate does
  (`Predicate.parse_shorthand`).
-/
import SecurityRules.Proofs.Formula.Collapse
import SecurityRules.Proofs.Shorthand.Soundness

namespace SecurityRules.Shorthand

open SecurityRules.Text

namespace Phrase

/-! ## §1. Phrases in parentheses. -/

/-- A term as a member of a chain: of alternatives, as a conjunction of one. -/
def asMember : (c : Connective) → Phrase .term → Phrase (Level.memberOf c)
  | .all, p => p
  | .any, p => .single p

/-- A chain as an expression. -/
def loosen : {c : Connective} → Phrase (.chain c) → Phrase (.chain .any)
  | .all, p => .single p
  | .any, p => p

/-- A chain with the same joint between any two members. -/
def chainOf {c : Connective} (joint : Joint c) :
    Phrase (Level.memberOf c) → List (Phrase (Level.memberOf c)) → Phrase (.chain c)
  | first, [] => .single first
  | first, next :: more => .joined first joint (chainOf joint next more)

/-- Terms as an expression, with the same joint between any two. -/
def expressionOf {c : Connective} (joint : Joint c) (first : Phrase .term)
    (more : List (Phrase .term)) : Phrase (.chain .any) :=
  (chainOf joint (asMember c first) (more.map (asMember c))).loosen

/-- Terms in one pair of parentheses, with the same joint between any two. -/
def groupOf {c : Connective} (joint : Joint c) (first : Phrase .term)
    (more : List (Phrase .term)) : Phrase .term :=
  .group [] (chainOf joint (asMember c first) (more.map (asMember c))).loosen []

variable {c : Connective} (joint : Joint c)

/-- A chain reads as its members with the joint between any two. -/
theorem text_chainOf (first : Phrase (Level.memberOf c))
    (more : List (Phrase (Level.memberOf c))) :
    (chainOf joint first more).text = joint.text.intercalate ((first :: more).map text) := by
  induction more generalizing first with
  | nil =>
      rw [List.map_cons, List.map_nil, List.intercalate_singleton]
      rfl
  | cons next more ih =>
      rw [chainOf, text, ih next, List.map_cons, List.map_cons, List.map_cons,
        List.intercalate_cons_cons, List.append_assoc]

/-- A chain means its members, in order. -/
theorem members_chainOf (first : Phrase (Level.memberOf c))
    (more : List (Phrase (Level.memberOf c))) :
    (chainOf joint first more).members = (first :: more).map term := by
  induction more generalizing first with
  | nil => rfl
  | cons next more ih =>
      rw [chainOf, members, ih next]
      rfl

/-- Where the joint has layout on both sides no layout is missing in the chain.
-/
theorem spaced_chainOf (hb : joint.before ≠ []) (ha : joint.after ≠ [])
    (first : Phrase (Level.memberOf c)) (more : List (Phrase (Level.memberOf c)))
    (h : ∀ p ∈ first :: more, p.Spaced) : (chainOf joint first more).Spaced := by
  induction more generalizing first with
  | nil => exact h first List.mem_cons_self
  | cons next more ih =>
      have hmore := ih next fun p hp => h p (List.mem_cons_of_mem _ hp)
      exact ⟨.inl hb, .inl ha, h first List.mem_cons_self, hmore⟩

theorem text_asMember (p : Phrase .term) : (asMember c p).text = p.text := by
  cases c <;> rfl

/-- A term means the same as a conjunction of one. -/
theorem term_asMember (p : Phrase .term) : (asMember c p).term = p.term := by
  cases c <;> rfl

theorem spaced_asMember {p : Phrase .term} (h : p.Spaced) : (asMember c p).Spaced := by
  cases c <;> exact h

theorem text_loosen (p : Phrase (.chain c)) : p.loosen.text = p.text := by
  cases c <;> rfl

/-- A conjunction means the same as the only alternative. -/
theorem term_loosen (p : Phrase (.chain c)) : p.loosen.term = p.term := by
  cases c <;> rfl

theorem spaced_loosen {p : Phrase (.chain c)} (h : p.Spaced) : p.loosen.Spaced := by
  cases c <;> exact h

/-- Terms that are joined read as their texts with the joint between any two. -/
theorem text_expressionOf (first : Phrase .term) (more : List (Phrase .term)) :
    (expressionOf joint first more).text = joint.text.intercalate ((first :: more).map text) := by
  have hmore : (more.map (asMember c)).map text = more.map text := by
    rw [List.map_map]
    exact List.map_congr_left fun p _ => text_asMember p
  rw [expressionOf, text_loosen, text_chainOf, List.map_cons, List.map_cons, hmore, text_asMember]

/-- They mean one junction of what they mean, or what the single one means. -/
theorem term_expressionOf (first : Phrase .term) (more : List (Phrase .term)) :
    (expressionOf joint first more).term = c.gather ((first :: more).map term) := by
  have hmore : (more.map (asMember c)).map term = more.map term := by
    rw [List.map_map]
    exact List.map_congr_left fun p _ => term_asMember p
  rw [expressionOf, term_loosen, term_eq_gather, members_chainOf, List.map_cons, List.map_cons,
    hmore, term_asMember]

/-- A group reads as its terms in one pair of parentheses. -/
theorem text_groupOf (first : Phrase .term) (more : List (Phrase .term)) :
    (groupOf joint first more).text
      = '(' :: (joint.text.intercalate ((first :: more).map text) ++ [')']) := by
  show '(' :: ([] ++ ((expressionOf joint first more).text ++ ([] ++ [')']))) = _
  rw [text_expressionOf]
  rfl

theorem term_groupOf (first : Phrase .term) (more : List (Phrase .term)) :
    (groupOf joint first more).term = c.gather ((first :: more).map term) :=
  term_expressionOf joint first more

/-- A group of spaced terms is spaced. -/
theorem spaced_groupOf (hb : joint.before ≠ []) (ha : joint.after ≠ []) (first : Phrase .term)
    (more : List (Phrase .term)) (h : ∀ p ∈ first :: more, p.Spaced) :
    (groupOf joint first more).Spaced := by
  refine spaced_loosen (spaced_chainOf joint hb ha _ _ ?_)
  intro p hp
  rw [← List.map_cons] at hp
  obtain ⟨q, hq, rfl⟩ := List.mem_map.1 hp
  exact spaced_asMember (h q hq)

end Phrase

/-! ## §2. Phrases for trees. -/

section Trees

variable {α : Type}

/-- The text of a tree with the text of each leaf and with every node in
parentheses. -/
def treeText (joint : (c : Connective) → Joint c) (text : α → List Char) :
    Formula α → List Char :=
  Formula.fold text fun c parts => '(' :: ((joint c).text.intercalate parts ++ [')'])

/-- Whether a text is that of a phrase of one term that means `t`. -/
def IsTerm (s : List Char) (t : Term) : Prop :=
  ∃ p : Phrase .term, p.text = s ∧ p.term = t ∧ p.Spaced

/-- Where every part of a tree is written as one term there are phrases for all
of them at once. -/
theorem exists_phrases (text : Formula α → List Char) (term : Formula α → Term)
    {parts : List (Formula α)} (h : ∀ part ∈ parts, IsTerm (text part) (term part)) :
    ∃ ps : List (Phrase .term), ps.map Phrase.text = parts.map text
      ∧ ps.map Phrase.term = parts.map term ∧ ∀ p ∈ ps, p.Spaced := by
  induction parts with
  | nil => exact ⟨[], rfl, rfl, fun p hp => absurd hp List.not_mem_nil⟩
  | cons part parts ih =>
      obtain ⟨p, htext, hterm, hspaced⟩ := h part List.mem_cons_self
      obtain ⟨ps, htexts, hterms, hall⟩ := ih fun q hq => h q (List.mem_cons_of_mem _ hq)
      refine ⟨p :: ps, ?_, ?_, ?_⟩
      · rw [List.map_cons, List.map_cons, htext, htexts]
      · rw [List.map_cons, List.map_cons, hterm, hterms]
      · intro q hq
        rcases List.mem_cons.1 hq with rfl | hq
        · exact hspaced
        · exact hall q hq

/-- **A tree of terms is a term.** When the leaves of a tree are terms, and no
node is empty, the tree in parentheses is a term too, and means the collapsed
tree. -/
theorem isTerm_treeText (joint : (c : Connective) → Joint c)
    (hjoint : ∀ c, (joint c).before ≠ [] ∧ (joint c).after ≠ []) (text : α → List Char)
    (clause : α → Clause) {t : Formula α}
    (h : t.Filled (fun a => IsTerm (text a) (.leaf (clause a))) 1) :
    IsTerm (treeText joint text t) (t.map clause).collapse := by
  induction h with
  | leaf h => exact h
  | @node c parts hlen _ ih =>
      obtain ⟨ps, htexts, hterms, hspaced⟩ := exists_phrases (treeText joint text)
        (fun part => (part.map clause).collapse) ih
      -- a group needs a first member: the node is not empty
      cases ps with
      | nil =>
          have hnil : parts = [] := List.map_eq_nil_iff.1 htexts.symm
          rw [hnil] at hlen
          exact absurd hlen (Nat.not_succ_le_zero 0)
      | cons first more =>
          refine ⟨Phrase.groupOf (joint c) first more, ?_, ?_, ?_⟩
          · rw [Phrase.text_groupOf, htexts, treeText, Formula.fold_node]
          · rw [Phrase.term_groupOf, hterms, Formula.map_node, Formula.collapse_node,
              List.map_map]
            rfl
          · exact Phrase.spaced_groupOf _ (hjoint c).1 (hjoint c).2 first more hspaced

end Trees

end SecurityRules.Shorthand

namespace SecurityRules

open Shorthand SecurityRules.Text

/-- A text of one term is read as this term. -/
theorem parse_of_isTerm {text : String} {t : Term} (h : IsTerm text.toList t) :
    Predicate.parse text = .ok t.toJunction := by
  obtain ⟨p, htext, rfl, hspaced⟩ := h
  have hread := parseChars_of_spaced [] [] (e := .single (c := .any) (.single (c := .all) p))
    hspaced
  have hsame : ([] : List Char) ++ (p.text ++ []) = text.toList := by
    rw [List.nil_append, List.append_nil, htext]
  rw [Predicate.parse, ← hsame]
  exact hread

/-! ## §3. Printable predicates. -/

/-- Whether a clause can be told from its shorthand. -/
def Clause.WellSpelled : Clause → Prop
  | .literal text => IsLiteral text
  | .condition c => c.left.WellSpelled ∧ c.right.WellSpelled

instance (c : Clause) : Decidable c.WellSpelled :=
  match c with
  | .literal text => inferInstanceAs (Decidable (IsLiteral text))
  | .condition _ => inferInstanceAs (Decidable (_ ∧ _))

/-- Whether every clause of a predicate can be told from its shorthand, and no
junction is empty. -/
def Predicate.Printable (p : Predicate) : Prop :=
  p.toFormula.Filled Clause.WellSpelled 1

/-- The shorthand of a clause is a phrase of one term. -/
theorem isTerm_shorthand {c : Clause} (h : c.WellSpelled) :
    IsTerm c.shorthand.toList (.leaf c) := by
  cases c with
  | literal text => exact ⟨.literal text h, rfl, rfl, trivial⟩
  | condition c =>
      refine ⟨.condition c h.1 h.2 Gap.space Gap.space, ?_, rfl, ?_, ?_⟩
      · exact (Condition.toList_shorthand c).symm
      · exact List.cons_ne_nil _ _
      · exact List.cons_ne_nil _ _

/-- The shorthand has every junction in parentheses. -/
theorem Term.toList_shorthand (t : Term) :
    (Term.shorthand t).toList
      = treeText (fun _ => Joint.spaced) (fun c => c.shorthand.toList) t := by
  induction t using Formula.induct with
  | leaf c => rfl
  | node c terms ih =>
      rw [Term.shorthand, Term.shorthandAll_eq_map, Connective.group, treeText,
        Formula.fold_node, String.toList_append, String.toList_append,
        String.toList_intercalate, Joint.text_spaced, List.map_map, List.append_assoc]
      exact congrArg (fun texts => '(' :: (Joint.spaced.text.intercalate texts ++ [')']))
        (List.map_congr_left ih)

theorem Clause.isBlank_of_wellSpelled {c : Clause} (h : c.WellSpelled) : c.isBlank = false := by
  cases c with
  | literal text => exact Shorthand.IsLiteral.isBlank_eq_false h
  | condition c => rfl

/-! ## §4. What is read. -/

/-- What is read has no empty junction and none of one term, and its clauses
are well spelled. -/
theorem Shorthand.Phrase.filled_term {l : Level} (p : Phrase l) :
    p.term.Filled Clause.WellSpelled 2
      ∧ ∀ t ∈ p.members, t.Filled Clause.WellSpelled 2 := by
  induction p with
  | literal text h =>
      have hleaf : Formula.Filled Clause.WellSpelled 2 (.leaf (.literal text)) := .leaf h
      exact ⟨hleaf, fun t ht => List.mem_singleton.1 ht ▸ hleaf⟩
  | condition c hl hr before after =>
      have hleaf : Formula.Filled Clause.WellSpelled 2 (.leaf (.condition c)) := .leaf ⟨hl, hr⟩
      exact ⟨hleaf, fun t ht => List.mem_singleton.1 ht ▸ hleaf⟩
  | group before inner after ih => exact ⟨ih.1, fun t ht => List.mem_singleton.1 ht ▸ ih.1⟩
  | single member ih => exact ⟨ih.1, fun t ht => List.mem_singleton.1 ht ▸ ih.1⟩
  | @joined c member joint more ih ihm =>
      have hmembers : ∀ t ∈ (joined member joint more).members,
          t.Filled Clause.WellSpelled 2 := by
        intro t ht
        rcases List.mem_cons.1 ht with rfl | ht
        · exact ih.1
        · exact ihm.2 t ht
      refine ⟨?_, hmembers⟩
      -- the member in front and at least one behind the joint make two
      have hpos := List.length_pos_iff.2 more.members_ne_nil
      refine .node ?_ hmembers
      rw [List.length_cons]
      omega

/-- The text of a predicate that consists of a well spelled term is the text of
this term. -/
theorem Term.renderIn_of_toJunction {scope : Scope} {n : Nat} {t : Term}
    (ht : t.Filled Clause.WellSpelled n) {rendered : String}
    (h : Predicate.renderIn scope t.toJunction = .ok rendered) :
    Term.renderIn scope t = .ok (some rendered) := by
  have hblank : t.Filled (fun c => c.isBlank = false) 0 :=
    ht.mono (fun _ hc => Clause.isBlank_of_wellSpelled hc) (Nat.zero_le n)
  rw [← Predicate.renderIn_toJunction scope hblank, h]
  rfl

/-- What is read is well spelled, and each of its junctions has two parts or
more. -/
theorem Predicate.exists_term_of_parse {text : String} {p : Predicate}
    (h : Predicate.parse text = .ok p) :
    ∃ t : Term, t.Filled Clause.WellSpelled 2 ∧ t.toJunction = p := by
  obtain ⟨lead, e, trail, -, -, -, hp⟩ := Predicate.parse_eq_ok_iff.1 h
  exact ⟨e.term, e.filled_term.1, hp⟩

/-! ## §5. Reading the shorthand. -/

/-- **A printable predicate is read back from its shorthand**, with every
junction of one term collapsed; and what is read back renders as the predicate
does, in every scope and also where it cannot be rendered. -/
theorem Predicate.parse_shorthand {p : Predicate} (h : p.Printable) :
    Predicate.parse p.shorthand = .ok p.collapse
      ∧ ∀ scope, p.collapse.renderIn scope = p.renderIn scope := by
  constructor
  · -- in the shorthand the whole predicate is a single term
    have hterm := isTerm_treeText (fun _ => Joint.spaced)
      (fun c => ⟨List.cons_ne_nil _ _, List.cons_ne_nil _ _⟩) (fun c => c.shorthand.toList) id
      (h.mono (fun _ hc => isTerm_shorthand hc) (Nat.le_refl 1))
    rw [Formula.map_id, ← Term.toList_shorthand, Predicate.shorthand_toFormula] at hterm
    exact parse_of_isTerm hterm
  · -- literals are never blank, so nothing is dropped before or after collapsing
    intro scope
    refine Predicate.renderIn_collapse scope ?_
    exact h.mono (fun _ hc => Clause.isBlank_of_wellSpelled hc) (Nat.zero_le 1)

theorem Predicate.parse_shorthand_nested :
    Predicate.Printable ⟨.any, [.node .all [.node .any [.leaf (.literal "a.b")]],
        .node .all [.leaf (.condition ⟨.field (.named "x"), .containsAny, .literal "[1]"⟩)]]⟩
      ∧ Predicate.parse "(((a.b)) OR ($x array-contains-any [1]))"
        = .ok ⟨.any, [.leaf (.literal "a.b"),
          .leaf (.condition ⟨.field (.named "x"), .containsAny, .literal "[1]"⟩)]⟩ := by
  have h : Predicate.Printable ⟨.any, [.node .all [.node .any [.leaf (.literal "a.b")]],
      .node .all [.leaf (.condition ⟨.field (.named "x"), .containsAny, .literal "[1]"⟩)]]⟩ := by
    have ha : Clause.WellSpelled (.literal "a.b") := by decide +kernel
    have hx : Clause.WellSpelled
        (.condition ⟨.field (.named "x"), .containsAny, .literal "[1]"⟩) := by decide +kernel
    refine .node (by decide) fun part hpart => ?_
    simp only [List.mem_cons, List.not_mem_nil, or_false] at hpart
    rcases hpart with rfl | rfl
    · refine .node (by decide) fun part hpart => ?_
      obtain rfl := List.mem_singleton.1 hpart
      refine .node (by decide) fun part hpart => ?_
      obtain rfl := List.mem_singleton.1 hpart
      exact .leaf ha
    · refine .node (by decide) fun part hpart => ?_
      obtain rfl := List.mem_singleton.1 hpart
      exact .leaf hx
  refine ⟨h, ?_⟩
  exact (Predicate.parse_shorthand h).1

end SecurityRules
