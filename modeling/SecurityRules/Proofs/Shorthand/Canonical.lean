/-
  SecurityRules.Proofs.Shorthand.Canonical
  ────────────────────────────────
  **THE SHORTHAND AS A NORMAL FORM.**

  Reading leaves no junction of one term behind, except where a whole text is a
  single clause.  A predicate of that form is canonical.  Its shorthand is read
  back as the predicate itself, since there is nothing left to collapse.

    * `Predicate.canonical_of_filled` — a term without junctions of one term is
      canonical as a predicate;
    * `Predicate.parse_shorthand_of_filled` — and it is read back unchanged.

  Main statement: `Predicate.canonical_of_parse`.
-/
import SecurityRules.Proofs.Shorthand.RoundTrip

namespace SecurityRules

open Shorthand

/-! ## §1. Canonical predicates. -/

/-- Whether nothing in a predicate can be collapsed. -/
structure Predicate.Canonical (p : Predicate) : Prop where
  /-- Every junction inside it has two or more terms. -/
  nested : ∀ t ∈ p.parts, t.Filled (fun _ => True) 2
  /-- So has the whole, unless it is a single clause. -/
  whole : 2 ≤ p.parts.length ∨ ∃ c : Clause, p = ⟨.all, [.leaf c]⟩

theorem Predicate.canonical_of_filled {P : Clause → Prop} {t : Term} (h : t.Filled P 2) :
    Predicate.Canonical t.toJunction := by
  have hmono : ∀ u : Term, u.Filled P 2 → u.Filled (fun _ => True) 2 :=
    fun u hu => hu.mono (fun _ _ => trivial) (Nat.le_refl 2)
  cases h with
  | @leaf c hc =>
      refine ⟨fun u hu => ?_, .inr ⟨c, rfl⟩⟩
      rw [List.mem_singleton.1 hu]
      exact .leaf trivial
  | node hlen hparts => exact ⟨fun u hu => hmono u (hparts u hu), .inl hlen⟩

/-! ## §2. Reading back what was read. -/

/-- The shorthand of a well spelled term is a phrase of one term, which means
the collapsed term. -/
theorem Term.isTerm_shorthand {t : Term} (h : t.Filled Clause.WellSpelled 1) :
    IsTerm (Term.shorthand t).toList t.collapse := by
  have hterm := isTerm_treeText (fun _ => Joint.spaced)
    (fun c => ⟨List.cons_ne_nil _ _, List.cons_ne_nil _ _⟩) (fun c => c.shorthand.toList) id
    (h.mono (fun _ hc => SecurityRules.isTerm_shorthand hc) (Nat.le_refl 1))
  rw [Formula.map_id] at hterm
  rw [Term.toList_shorthand]
  exact hterm

/-- A well spelled term in which nothing can be collapsed is read back from its
shorthand, also where it is a single clause and stands in parentheses of its
own. -/
theorem Predicate.parse_shorthand_of_filled {t : Term} (h : t.Filled Clause.WellSpelled 2) :
    Predicate.parse (Predicate.shorthand t.toJunction) = .ok t.toJunction := by
  have hwhole : t.toJunction.toFormula.Filled Clause.WellSpelled 1 :=
    (h.mono (fun _ hc => hc) (Nat.le_succ 1)).toJunction (Nat.le_refl 1)
  have hread := Term.isTerm_shorthand hwhole
  rw [Formula.collapse_toJunction, Formula.collapse_of_filled h,
    Predicate.shorthand_toFormula] at hread
  exact parse_of_isTerm hread

/-- Writes a predicate down and reads it back, `n` times over. -/
def Predicate.reread : (n : Nat) → Predicate → Except SyntaxError Predicate
  | 0, p => .ok p
  | n + 1, p => (Predicate.parse p.shorthand).bind (Predicate.reread n)

theorem Predicate.reread_eq_ok {p : Predicate} (h : Predicate.parse p.shorthand = .ok p)
    (n : Nat) : p.reread n = .ok p := by
  induction n with
  | zero => rfl
  | succ n ih =>
      rw [Predicate.reread, h]
      exact ih

/-! ## §3. What is read is canonical. -/

/-- **What is read is canonical, and reading it back changes nothing**, however
often it is written down and read again. -/
theorem Predicate.canonical_of_parse {text : String} {p : Predicate}
    (h : Predicate.parse text = .ok p) :
    p.Canonical ∧ Predicate.parse p.shorthand = .ok p ∧ ∀ n, p.reread n = .ok p := by
  obtain ⟨t, ht, rfl⟩ := Predicate.exists_term_of_parse h
  have hback := Predicate.parse_shorthand_of_filled ht
  exact ⟨Predicate.canonical_of_filled ht, hback, Predicate.reread_eq_ok hback⟩

/-- A negated call, and a number or membership in a list with a bracket in
quotes. -/
def Predicate.callAndChoice : Predicate :=
  ⟨.all, [.leaf (.literal "!f(x, '(')"), .node .any [.leaf (.literal "-1"),
    .leaf (.condition ⟨.field (.named "a"), .memberOf, .literal "['[', @1]"⟩)]]⟩

theorem Predicate.canonical_callAndChoice :
    Predicate.parse "((!f(x, '(')) and ((-1)or ($a in ['[', @1]) # last\n))" = .ok callAndChoice
      ∧ callAndChoice.shorthand = "(!f(x, '(') AND (-1 OR $a in ['[', @1]))"
      ∧ callAndChoice.Canonical
      ∧ Predicate.parse "(!f(x, '(') AND (-1 OR $a in ['[', @1]))" = .ok callAndChoice
      ∧ ∀ n, callAndChoice.reread n = .ok callAndChoice := by
  have hparse : Predicate.parse "((!f(x, '(')) and ((-1)or ($a in ['[', @1]) # last\n))"
      = .ok callAndChoice :=
    Except.eq_ok_of_toOption (by decide +kernel)
  have hprint : callAndChoice.shorthand = "(!f(x, '(') AND (-1 OR $a in ['[', @1]))" := by
    decide +kernel
  obtain ⟨hcanonical, hback, hagain⟩ := Predicate.canonical_of_parse hparse
  exact ⟨hparse, hprint, hcanonical, hprint ▸ hback, hagain⟩

end SecurityRules
