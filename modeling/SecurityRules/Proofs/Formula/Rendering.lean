/-
  SecurityRules.Proofs.Formula.Rendering
  ────────────────────────────────
  **WHAT THE TEXT OF A RULE TAKES OVER FROM ITS LEAVES.**

  Rendering only ever does three things to the texts of the parts of a rule: it
  puts them behind one another, it puts the symbol of a connective between them,
  and it puts parentheses around the whole.  A property of texts that survives
  these three passes from the leaves of a rule to its text.

    * `Joins` — a property that survives them;
    * `Formula.joins_of_render` — it passes to the text of a rule;
    * `Formula.filled_of_render` — a rule without parts has no text, nor has one
      that contains it;
    * `Formula.infix_of_render` — every leaf that is not blank is in the text.
-/
import SecurityRules.Proofs.Formula.Collapse

namespace SecurityRules

/-! ## §1. Properties of joined texts. -/

/-- Whether a property of texts passes from the parts of a junction to its
text. -/
structure Joins (Q : List Char → Prop) : Prop where
  append : ∀ {s t : List Char}, Q s → Q t → Q (s ++ t)
  symbol : ∀ c : Connective, Q (" " ++ c.symbol ++ " ").toList
  group : ∀ {s : List Char}, Q s → Q ('(' :: (s ++ [')']))

variable {Q : List Char → Prop}

/-- What passes to two texts put behind one another passes to texts that are
joined by a separator. -/
theorem intercalate_of_append (happend : ∀ {s t : List Char}, Q s → Q t → Q (s ++ t))
    {sep : List Char} (hsep : Q sep) {texts : List (List Char)} (hne : texts ≠ [])
    (h : ∀ text ∈ texts, Q text) : Q (sep.intercalate texts) := by
  induction texts with
  | nil => exact absurd rfl hne
  | cons text texts ih =>
      have htext := h text List.mem_cons_self
      cases texts with
      | nil =>
          rw [List.intercalate_singleton]
          exact htext
      | cons next texts =>
          rw [List.intercalate_cons_cons]
          have hrest := ih (List.cons_ne_nil _ _) fun t ht => h t (List.mem_cons_of_mem _ ht)
          exact happend (happend htext hsep) hrest

/-- A text alone stands bare; two or more are joined and put into
parentheses. -/
theorem Connective.enclose_eq_ok {c : Connective} {texts : List String} {text : String}
    (h : c.enclose texts = .ok text) :
    texts = [text]
      ∨ texts ≠ [] ∧ text.toList
        = '(' :: ((" " ++ c.symbol ++ " ").toList.intercalate (texts.map String.toList)
          ++ [')']) := by
  match texts with
  | [] => cases h
  | [only] =>
      cases h
      exact .inl rfl
  | first :: next :: texts =>
      cases h
      refine .inr ⟨List.cons_ne_nil _ _, ?_⟩
      rw [String.toList_append, String.toList_append, String.toList_intercalate,
        List.append_assoc]
      rfl

theorem Joins.enclose (hQ : Joins Q) {c : Connective} {texts : List String} {text : String}
    (htexts : ∀ t ∈ texts, Q t.toList) (h : c.enclose texts = .ok text) : Q text.toList := by
  rcases Connective.enclose_eq_ok h with rfl | ⟨hne, htext⟩
  · exact htexts text List.mem_cons_self
  · rw [htext]
    refine hQ.group (intercalate_of_append hQ.append (hQ.symbol c) (by simp [hne]) fun t ht => ?_)
    obtain ⟨t, hmem, rfl⟩ := List.mem_map.1 ht
    exact htexts t hmem

/-! ## §2. The text of a rule. -/

namespace Formula

/-- Every text that is left comes from a part. -/
theorem exists_of_mem_renderAll {parts : List (Formula String)} {texts : List String}
    (h : renderAll parts = .ok texts) {text : String} (htext : text ∈ texts) :
    ∃ part ∈ parts, render part = .ok (some text) := by
  induction parts generalizing texts with
  | nil =>
      cases h
      exact absurd htext List.not_mem_nil
  | cons part parts ih =>
      obtain ⟨kept, rest, hpart, hrest, rfl⟩ := renderAll_cons_eq_ok.1 h
      rcases List.mem_append.1 htext with hmem | hmem
      · obtain rfl := Option.mem_toList.1 hmem
        exact ⟨part, List.mem_cons_self, hpart⟩
      · obtain ⟨p, hp, hrender⟩ := ih hrest hmem
        exact ⟨p, List.mem_cons_of_mem _ hp, hrender⟩

/-- **The text of a rule has what the texts of its leaves have**, if the
property passes to the texts of junctions. -/
theorem joins_of_render (hQ : Joins Q) {n : Nat} {r : Formula String}
    (hr : r.Filled (fun text => Q text.toList) n) {text : String}
    (h : render r = .ok (some text)) : Q text.toList := by
  induction hr generalizing text with
  | @leaf expression hleaf =>
      rw [render] at h
      split at h
      · cases h
      · cases h
        exact hleaf
  | @node c parts _ _ ih =>
      obtain ⟨texts, hall, htext⟩ := render_node_eq_ok.1 h
      refine hQ.enclose (fun t ht => ?_) htext
      obtain ⟨part, hmem, hpart⟩ := exists_of_mem_renderAll hall ht
      exact ih part hmem hpart

theorem exists_render_of_mem {parts : List (Formula String)} {texts : List String}
    (h : renderAll parts = .ok texts) {part : Formula String} (hpart : part ∈ parts) :
    ∃ o, render part = .ok o := by
  induction parts generalizing texts with
  | nil => exact absurd hpart List.not_mem_nil
  | cons first parts ih =>
      obtain ⟨kept, rest, hfirst, hrest, -⟩ := renderAll_cons_eq_ok.1 h
      rcases List.mem_cons.1 hpart with rfl | hmem
      · exact ⟨kept, hfirst⟩
      · exact ih hrest hmem

/-- No node of a rule that renders is without parts. -/
theorem filled_of_render {P : String → Prop} {r : Formula String} (hr : r.Filled P 0)
    {o : Option String} (h : render r = .ok o) : r.Filled P 1 := by
  induction hr generalizing o with
  | leaf hleaf => exact .leaf hleaf
  | @node c parts _ _ ih =>
      obtain ⟨text, rfl⟩ := exists_of_render_node h
      obtain ⟨texts, hall, htext⟩ := render_node_eq_ok.1 h
      refine .node ?_ fun part hpart => ?_
      · cases parts with
        | nil =>
            -- nothing to enclose
            cases hall
            cases htext
        | cons part parts => exact Nat.succ_le_succ (Nat.zero_le parts.length)
      · obtain ⟨o', ho'⟩ := exists_render_of_mem hall hpart
        exact ih part hpart ho'

end Formula

/-- A rule renders as it does within a larger one. -/
theorem Rule.render_eq_ok {rule : Rule} {text : String} :
    rule.render = .ok text ↔ Formula.render rule.toFormula = .ok (some text) := by
  rw [Junction.toFormula, Formula.render_node, Rule.render]
  cases Formula.renderAll rule.parts with
  | error e => simp [bind, Except.bind, Except.map]
  | ok texts =>
      show rule.connective.enclose texts = _ ↔ (rule.connective.enclose texts).map some = _
      cases rule.connective.enclose texts <;> simp [Except.map]

/-! ## §3. Leaves inside the text. -/

theorem infix_intercalate {sep text : List Char} {texts : List (List Char)} (h : text ∈ texts) :
    text <:+: sep.intercalate texts := by
  induction texts with
  | nil => exact absurd h List.not_mem_nil
  | cons first texts ih =>
      cases texts with
      | nil =>
          obtain rfl := List.mem_singleton.1 h
          simp only [List.intercalate_singleton, List.infix_refl]
      | cons next texts =>
          rw [List.intercalate_cons_cons]
          rcases List.mem_cons.1 h with rfl | hlater
          · exact (List.infix_append' [] _ _).trans (List.infix_append' [] _ _)
          · exact (ih hlater).trans (List.suffix_append _ _).isInfix

theorem Connective.infix_of_enclose {c : Connective} {texts : List String} {text joined : String}
    (h : c.enclose texts = .ok joined) (htext : text ∈ texts) :
    text.toList <:+: joined.toList := by
  rcases Connective.enclose_eq_ok h with rfl | ⟨-, hjoined⟩
  · obtain rfl := List.mem_singleton.1 htext
    exact List.infix_refl _
  · rw [hjoined]
    exact (infix_intercalate (List.mem_map_of_mem htext)).trans (List.infix_append ['('] _ [')'])

namespace Formula

theorem mem_of_renderAll {parts : List (Formula String)} {texts : List String}
    (h : renderAll parts = .ok texts) {part : Formula String} (hpart : part ∈ parts)
    {text : String} (htext : render part = .ok (some text)) : text ∈ texts := by
  induction parts generalizing texts with
  | nil => exact absurd hpart List.not_mem_nil
  | cons first parts ih =>
      obtain ⟨kept, rest, hfirst, hrest, rfl⟩ := renderAll_cons_eq_ok.1 h
      rcases List.mem_cons.1 hpart with rfl | hlater
      · rw [htext] at hfirst
        cases hfirst
        exact List.mem_append_left _ List.mem_cons_self
      · exact List.mem_append_right _ (ih hrest hlater)

/-- A leaf that says something is in the text of a rule. -/
theorem infix_of_render {r : Formula String} {leaf : String} (hleaf : leaf ∈ r.leaves)
    (hspoken : Text.isBlank leaf = false) {o : Option String} (h : render r = .ok o) :
    ∃ text, o = some text ∧ leaf.toList <:+: text.toList := by
  induction r using Formula.induct generalizing o with
  | leaf expression =>
      obtain rfl := List.mem_singleton.1 hleaf
      rw [render, hspoken] at h
      cases h
      exact ⟨leaf, rfl, List.infix_refl _⟩
  | node c parts ih =>
      rw [leaves_node] at hleaf
      obtain ⟨leaves, hleaves, hin⟩ := List.mem_flatten.1 hleaf
      obtain ⟨part, hpart, rfl⟩ := List.mem_map.1 hleaves
      obtain ⟨joined, rfl⟩ := exists_of_render_node h
      -- the part of the leaf is among the parts that are kept, and kept as a whole
      obtain ⟨texts, hall, hjoined⟩ := render_node_eq_ok.1 h
      obtain ⟨kept, hkept⟩ := exists_render_of_mem hall hpart
      obtain ⟨text, rfl, htext⟩ := ih part hpart hin hkept
      exact ⟨joined, rfl,
        htext.trans (Connective.infix_of_enclose hjoined (mem_of_renderAll hall hpart hkept))⟩

end Formula

end SecurityRules
