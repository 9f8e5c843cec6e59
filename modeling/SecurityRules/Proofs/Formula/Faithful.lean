/-
  SecurityRules.Proofs.Formula.Faithful
  ────────────────────────────────
  **THE TEXT OF A RULE DETERMINES THE RULE.**

  Rendering drops blank expressions and writes a single part without
  parentheses, so rules that differ only there share their text.  Up to that the
  rule can be told from its text, as long as its expressions are atomic: no
  parenthesis, quote or connective of an expression can be taken for one of the
  rule.

    * `Rule.render_norm` — a rule renders as its normal form does;
    * `Formula.determined` — a normal form in front of something that ends a part
      is told from the text, and so is what follows it.

  Main statement: `Rule.render_eq_iff`.
-/
import SecurityRules.Proofs.Formula.Rendering
import SecurityRules.Proofs.Shorthand.Regrouping

namespace SecurityRules

open Shorthand

/-! ## §1. Atomic expressions. -/

/-- Where a scan stands: outside quotes, in a quoted text, or in one right
behind a backslash. -/
inductive Scan where
  | outside
  | quoted (quote : Char)
  | escaped (quote : Char)
  deriving DecidableEq

namespace Scan

/-- The characters that the symbols of connectives are made of. -/
def isJoiner (c : Char) : Bool :=
  c == '&' || c == '|'

/-- Scans one character, with the number of open round parentheses. There is no
next state where the character belongs to what stands around the text: outside
quotes, a parenthesis that closes none of its own, or a joiner in none. -/
def step : Nat × Scan → Char → Option (Nat × Scan)
  | (depth, quoted quote), c =>
      some (depth,
        if c = '\\' then escaped quote else if c = quote then outside else quoted quote)
  | (depth, escaped quote), _ => some (depth, quoted quote)
  | (depth, outside), c =>
      if isQuote c then some (depth, quoted c)
      else if c = '(' then some (depth + 1, outside)
      else if c = ')' then if depth = 0 then none else some (depth - 1, outside)
      else if isJoiner c then if depth = 0 then none else some (depth, outside)
      else some (depth, outside)

/-- What is left of a text where the scan of it stops. -/
def remainder : Nat × Scan → List Char → List Char
  | _, [] => []
  | state, c :: s =>
      match step state c with
      | some next => remainder next s
      | none => c :: s

/-- A text that is scanned to its end is passed over in front of any other. -/
theorem remainder_append {state next : Nat × Scan} {s : List Char}
    (h : s.foldlM step state = some next) (rest : List Char) :
    remainder state (s ++ rest) = remainder next rest := by
  induction s generalizing state with
  | nil =>
      obtain rfl : state = next := Option.some.inj h
      rfl
  | cons c s ih =>
      rw [List.foldlM_cons] at h
      rw [List.cons_append, remainder]
      cases hc : step state c with
      | none =>
          rw [hc] at h
          cases h
      | some mid =>
          rw [hc] at h
          exact ih h

end Scan

/-- Whether an expression cannot be taken for a junction, nor for a part of one:
it does not start with a parenthesis, every quote in it is closed, the round
parentheses outside quotes are nested, and outside both there is no joiner. -/
def IsAtomic (expression : String) : Prop :=
  expression.toList.head? ≠ some '('
    ∧ expression.toList.foldlM Scan.step (0, .outside) = some (0, .outside)

instance (expression : String) : Decidable (IsAtomic expression) :=
  inferInstanceAs (Decidable (_ ∧ _))

/-! ## §2. Normal forms. -/

/-- The tree without its blank leaves; `none` for a blank leaf. -/
def Formula.prune : Formula String → Option (Formula String) :=
  Formula.fold (fun expression => if Text.isBlank expression then none else some (.leaf expression))
    fun c parts => some (.node c parts.reduceOption)

/-- A junction stays a junction, over what is left of its parts. -/
theorem Formula.prune_node (c : Connective) (parts : List (Formula String)) :
    prune (.node c parts) = some (.node c (parts.filterMap prune)) := by
  unfold prune
  rw [fold_node]
  show some (Formula.node c ((parts.map _).filterMap id)) = _
  rw [List.filterMap_map]
  rfl

/-- The normal form of a rule: blank expressions are dropped, and every junction
that one part is left of is replaced by this part. -/
def Rule.norm (rule : Rule) : Formula String :=
  Formula.collapse (.node rule.connective (rule.parts.filterMap Formula.prune))

namespace Formula

/-- Parts that are blank leave no text, so the texts of the parts are those of
what is left of them. -/
theorem renderAll_prune {parts : List (Formula String)}
    (h : ∀ part ∈ parts, render part = ((prune part).elim (.ok none) render)) :
    renderAll (parts.filterMap prune) = renderAll parts := by
  induction parts with
  | nil => rfl
  | cons part parts ih =>
      obtain ⟨hpart, hrest⟩ := List.forall_mem_cons.1 h
      rw [renderAll_cons, hpart, List.filterMap_cons, ← ih hrest]
      cases prune part with
      | none =>
          show _ = (renderAll (parts.filterMap prune)).map ([] ++ ·)
          cases renderAll (parts.filterMap prune) <;> rfl
      | some q => rfl

/-- Rendering does not notice that blank leaves are gone. -/
theorem render_prune (r : Formula String) : render r = (prune r).elim (.ok none) render := by
  induction r using Formula.induct with
  | leaf expression =>
      unfold prune
      rw [fold_leaf, render]
      split
      · rfl
      · next hblank => simp [render, hblank]
  | node c parts ih =>
      rw [prune_node]
      show _ = render (.node c (parts.filterMap prune))
      rw [render_node, render_node, renderAll_prune ih]

/-- What is left of a tree has the property that its leaves have unless they are
blank. -/
theorem Filled.prune {P : String → Prop} {r : Formula String}
    (h : r.Filled (fun expression => Text.isBlank expression = false → P expression) 0)
    {q : Formula String} (hq : Formula.prune r = some q) :
    q.Filled (fun expression => Text.isBlank expression = false ∧ P expression) 0 := by
  induction h generalizing q with
  | @leaf expression h =>
      unfold Formula.prune at hq
      rw [fold_leaf] at hq
      split at hq
      · cases hq
      · next hblank =>
          cases hq
          have hfull := Bool.eq_false_iff.2 hblank
          exact .leaf ⟨hfull, h hfull⟩
  | @node c parts _ _ ih =>
      rw [prune_node] at hq
      cases hq
      refine .node (Nat.zero_le _) fun q hq => ?_
      obtain ⟨part, hpart, hprune⟩ := List.mem_filterMap.1 hq
      exact ih part hpart hprune

end Formula

/-- Whether an expression is atomic and says something. -/
def IsPart (expression : String) : Prop :=
  Text.isBlank expression = false ∧ IsAtomic expression

/-- **A rule renders as its normal form does.** -/
theorem Rule.render_norm {rule : Rule} {text : String} :
    rule.render = .ok text ↔ Formula.render rule.norm = .ok (some text) := by
  have hall : (Formula.node rule.connective rule.parts).Filled
      (fun expression => Text.isBlank expression = false → True) 0 :=
    Formula.filled_of_leaves fun _ _ _ => trivial
  have hblank := (hall.prune (Formula.prune_node _ _)).mono (fun _ h => h.1) (Nat.le_refl 0)
  rw [Rule.render_eq_ok, Rule.norm, Formula.render_collapse hblank, Junction.toFormula,
    Formula.render_prune, Formula.prune_node]
  rfl

/-- Every junction of a normal form has two or more parts, if it renders. -/
theorem Rule.filled_norm {rule : Rule}
    (h : ∀ e ∈ rule.toFormula.leaves, Text.isBlank e = false → IsAtomic e) {text : String}
    (htext : rule.render = .ok text) : rule.norm.Filled IsPart 2 := by
  have hparts := (Formula.filled_of_leaves h).prune (Formula.prune_node _ _)
  have hblank := hparts.mono (fun _ h => h.1) (Nat.le_refl 0)
  have hrender := Rule.render_norm.1 htext
  rw [Rule.norm, Formula.render_collapse hblank] at hrender
  -- blank parts are gone, and no rule renders with an empty junction
  exact (Formula.filled_of_render hparts hrender).collapse_of_one

/-! ## §3. Where a part ends. -/

/-- What stands between two parts of a junction. -/
def Connective.glue (c : Connective) : List Char :=
  (" " ++ c.symbol ++ " ").toList

/-- What stands between two parts tells the connective, and what follows. -/
theorem Connective.glue_append_inj {c d : Connective} {s t : List Char}
    (h : c.glue ++ s = d.glue ++ t) : c = d ∧ s = t := by
  have hall : Connective.all.glue = [' ', '&', '&', ' '] := by decide +kernel
  have hany : Connective.any.glue = [' ', '|', '|', ' '] := by decide +kernel
  cases c <;> cases d <;> simp [hall, hany] at h ⊢ <;> exact h

/-- Whether a text can stand behind a part: nothing, the end of the junction
around it, or one more part of this junction. -/
inductive EndsPart : List Char → Prop where
  | nil : EndsPart []
  | close (s : List Char) : EndsPart (')' :: s)
  | glue (c : Connective) (s : List Char) : EndsPart (c.glue ++ s)

/-- Puts the space back that a scan passes over in front of a joiner. -/
def Scan.resume : List Char → List Char
  | [] => []
  | c :: s => if Scan.isJoiner c then ' ' :: c :: s else c :: s

/-- What stands behind a part is told from what a scan of it leaves. -/
theorem EndsPart.resume_remainder {s : List Char} (h : EndsPart s) :
    Scan.resume (Scan.remainder (0, .outside) s) = s := by
  cases h with
  | nil => rfl
  | close s => rfl
  | glue c s => cases c <;> rfl

/-- Atomic expressions with what ends a part behind them are told apart. -/
theorem IsAtomic.append_inj {a b : String} (ha : IsAtomic a) (hb : IsAtomic b) {s t : List Char}
    (hs : EndsPart s) (ht : EndsPart t) (h : a.toList ++ s = b.toList ++ t) : a = b ∧ s = t := by
  have hrest : Scan.remainder (0, .outside) s = Scan.remainder (0, .outside) t := by
    rw [← Scan.remainder_append ha.2 s, h, Scan.remainder_append hb.2 t]
  -- one scan of the whole text leaves what follows either expression
  obtain rfl : s = t := by rw [← hs.resume_remainder, hrest, ht.resume_remainder]
  exact ⟨String.toList_inj.1 (List.append_cancel_right h), rfl⟩

/-! ## §4. Reading a normal form. -/

namespace Formula

/-- The text of a tree with every node in parentheses. -/
def written (r : Formula String) : List Char :=
  treeText (fun _ => Joint.rendered) String.toList r

/-- The text behind the first part of a node: the further parts, the closing
parenthesis, and what follows the node. -/
def writtenRest (c : Connective) (parts : List (Formula String)) (s : List Char) : List Char :=
  parts.foldr (fun part rest => c.glue ++ (written part ++ rest)) (')' :: s)

theorem endsPart_writtenRest (c : Connective) (parts : List (Formula String)) (s : List Char) :
    EndsPart (writtenRest c parts s) := by
  cases parts with
  | nil => exact .close s
  | cons part parts => exact .glue c _

/-- A node is written as a parenthesis, its first part, and the rest of the
node. -/
theorem written_node (c : Connective) (part : Formula String) (parts : List (Formula String))
    (s : List Char) :
    written (.node c (part :: parts)) ++ s
      = '(' :: (written part ++ writtenRest c parts s) := by
  have hjoin : ∀ (first : Formula String) (more : List (Formula String)),
      c.glue.intercalate ((first :: more).map written) ++ ')' :: s
        = written first ++ writtenRest c more s := by
    intro first more
    -- along the further parts, with the part in front of them as the first
    induction more generalizing first with
    | nil =>
        rw [List.map_singleton, List.intercalate_singleton]
        rfl
    | cons next more ih =>
        rw [List.map_cons, List.map_cons, List.intercalate_cons_cons, ← List.map_cons,
          List.append_assoc, List.append_assoc, ih]
        rfl
  have hnode : written (.node c (part :: parts))
      = '(' :: (c.glue.intercalate ((part :: parts).map written) ++ [')']) := by
    unfold written treeText
    rw [fold_node, Connective.glue, Joint.text_rendered]
  rw [hnode, List.cons_append, List.append_assoc]
  exact congrArg _ (hjoin part parts)

/-- Whether a tree and what follows it are told from the text of both, among
trees with two or more parts at each node. -/
def Determined (t : Formula String) : Prop :=
  ∀ {u : Formula String} {r s : List Char}, u.Filled IsPart 2 → EndsPart r → EndsPart s →
    written t ++ r = written u ++ s → t = u ∧ r = s

/-- The rest of a node tells the connective, the further parts and what follows,
provided that each part is told from its own text. Without a further part it
says nothing of the connective. -/
theorem writtenRest_inj {c d : Connective} {ps qs : List (Formula String)} {r s : List Char}
    (hps : ∀ p ∈ ps, Determined p) (hqs : ∀ q ∈ qs, q.Filled IsPart 2)
    (h : writtenRest c ps r = writtenRest d qs s) :
    (ps ≠ [] → c = d) ∧ ps = qs ∧ r = s := by
  have hglue : ∀ (e : Connective) (rest behind : List Char), ')' :: rest ≠ e.glue ++ behind := by
    intro e rest behind heq
    have hhead : ')' = ' ' := by cases e <;> exact (List.cons.inj heq).1
    exact absurd hhead (by decide)
  -- behind a part comes a parenthesis or a space, so both lists end together
  induction ps generalizing c qs r with
  | nil =>
      cases qs with
      | nil =>
          obtain rfl : r = s := List.tail_eq_of_cons_eq h
          exact ⟨fun hne => absurd rfl hne, rfl, rfl⟩
      | cons q qs => exact absurd h (hglue d r _)
  | cons p ps ih =>
      cases qs with
      | nil => exact absurd h.symm (hglue c s _)
      | cons q qs =>
          obtain ⟨hp, hps'⟩ := List.forall_mem_cons.1 hps
          obtain ⟨hq, hqs'⟩ := List.forall_mem_cons.1 hqs
          obtain ⟨rfl, hfirst⟩ := Connective.glue_append_inj h
          obtain ⟨rfl, hrest⟩ :=
            hp hq (endsPart_writtenRest c ps r) (endsPart_writtenRest c qs s) hfirst
          obtain ⟨-, rfl, rfl⟩ := ih hps' hqs' hrest
          exact ⟨fun _ => rfl, rfl, rfl⟩

/-- **A normal form is told from its text**, also where something follows that
ends a part. -/
theorem determined {t : Formula String} (ht : t.Filled IsPart 2) : Determined t := by
  -- an expression is not empty and starts with no parenthesis, a node with one
  have hleaf : ∀ {e : String}, IsPart e → ∀ {s rest : List Char}, e.toList ++ s ≠ '(' :: rest := by
    intro e he s rest heq
    obtain ⟨hblank, hhead, -⟩ := he
    cases hchars : e.toList with
    | nil => exact absurd hblank (by simp [Text.isBlank, hchars])
    | cons c cs =>
        rw [hchars] at heq hhead
        obtain ⟨rfl, -⟩ := List.cons.inj heq
        exact hhead rfl
  induction ht with
  | @leaf a ha =>
      intro u r s hu hr hs h
      cases hu with
      | leaf hb =>
          obtain ⟨rfl, rfl⟩ := ha.2.append_inj hb.2 hr hs h
          exact ⟨rfl, rfl⟩
      | @node d qs hlen _ =>
          obtain ⟨q, qs, rfl⟩ :=
            List.exists_cons_of_length_pos (Nat.lt_of_lt_of_le Nat.two_pos hlen)
          rw [written_node] at h
          exact absurd h (hleaf ha)
  | @node c ps hlen _ ih =>
      intro u r s hu hr hs h
      obtain ⟨p, ps, rfl⟩ := List.exists_cons_of_length_pos (Nat.lt_of_lt_of_le Nat.two_pos hlen)
      rw [written_node] at h
      cases hu with
      | leaf hb => exact absurd h.symm (hleaf hb)
      | @node d qs hlen' hqs =>
          obtain ⟨q, qs, rfl⟩ :=
            List.exists_cons_of_length_pos (Nat.lt_of_lt_of_le Nat.two_pos hlen')
          rw [written_node] at h
          obtain ⟨hp, hps⟩ := List.forall_mem_cons.1 ih
          obtain ⟨hq, hqs'⟩ := List.forall_mem_cons.1 hqs
          obtain ⟨rfl, hrest⟩ := hp hq (endsPart_writtenRest c ps r) (endsPart_writtenRest d qs s)
            (List.cons.inj h).2
          obtain ⟨hc, rfl, rfl⟩ := writtenRest_inj hps hqs' hrest
          -- a second part stands behind the symbol of the connective
          have hne : ps ≠ [] := by
            rintro rfl
            exact absurd hlen (by simp)
          rw [hc hne]
          exact ⟨rfl, rfl⟩

end Formula

/-- **Two rules have one text exactly when they have one normal form**, as long
as both render and their expressions are atomic. -/
theorem Rule.render_eq_iff {r s : Rule}
    (hr : ∀ e ∈ r.toFormula.leaves, Text.isBlank e = false → IsAtomic e)
    (hs : ∀ e ∈ s.toFormula.leaves, Text.isBlank e = false → IsAtomic e)
    {t u : String} (ht : r.render = .ok t) (hu : s.render = .ok u) :
    r.render = s.render ↔ r.norm = s.norm := by
  have hnr := Rule.filled_norm hr ht
  have hns := Rule.filled_norm hs hu
  have hwr := Formula.toList_of_render (hnr.mono (fun _ h => h.1) (Nat.le_refl 2)) t
    (Rule.render_norm.1 ht)
  have hws := Formula.toList_of_render (hns.mono (fun _ h => h.1) (Nat.le_refl 2)) u
    (Rule.render_norm.1 hu)
  constructor
  · intro h
    obtain rfl : t = u := Except.ok.inj (ht.symm.trans (h.trans hu))
    have hsame : Formula.written r.norm ++ [] = Formula.written s.norm ++ [] := by
      rw [Formula.written, Formula.written, ← hwr, ← hws]
    exact (Formula.determined hnr hns .nil .nil hsame).1
  · intro h
    have hboth := Rule.render_norm.1 ht
    rw [h] at hboth
    rw [ht, Rule.render_norm.2 hboth]

/-- A call, and one of two further expressions; the blank one and the junction
around the call leave no trace. -/
def Rule.callAndChoice : Rule :=
  ⟨.all, [.node .any [.text "f(a && (b))"], .text " ",
    .node .any [.text "x == \"|(\"", .text "y"]]⟩

/-- The same with other traces. -/
def Rule.callAndChoiceNested : Rule :=
  ⟨.any, [.node .all [.text "f(a && (b))",
    .node .any [.node .all [.text "x == \"|(\""], .text "", .text "y"]]]⟩

/-- Two rules of one text, although one of them is nested deeper: a junction of
one part and a blank expression leave no trace. -/
theorem Rule.render_callAndChoice :
    (∀ e ∈ callAndChoice.toFormula.leaves, Text.isBlank e = false → IsAtomic e)
      ∧ (∀ e ∈ callAndChoiceNested.toFormula.leaves, Text.isBlank e = false → IsAtomic e)
      ∧ callAndChoice.render = .ok "(f(a && (b)) && (x == \"|(\" || y))"
      ∧ callAndChoiceNested.render = .ok "(f(a && (b)) && (x == \"|(\" || y))"
      ∧ callAndChoice.norm = callAndChoiceNested.norm := by
  have hatomic : ∀ e ∈ callAndChoice.toFormula.leaves, Text.isBlank e = false → IsAtomic e := by
    decide +kernel
  have hatomic' : ∀ e ∈ callAndChoiceNested.toFormula.leaves,
      Text.isBlank e = false → IsAtomic e := by
    decide +kernel
  have hrender : callAndChoice.render = .ok "(f(a && (b)) && (x == \"|(\" || y))" :=
    Except.eq_ok_of_toOption (by decide +kernel)
  have hrender' : callAndChoiceNested.render = .ok "(f(a && (b)) && (x == \"|(\" || y))" :=
    Except.eq_ok_of_toOption (by decide +kernel)
  exact ⟨hatomic, hatomic', hrender, hrender',
    (Rule.render_eq_iff hatomic hatomic' hrender hrender').1 (hrender.trans hrender'.symm)⟩

/-- An expression that a connective stands open in would be taken for two parts,
and one in parentheses for a junction. -/
example : ¬IsAtomic "a && b" ∧ ¬IsAtomic "(a)" ∧ ¬IsAtomic "f('x)" ∧ IsAtomic "f('&') " := by
  decide +kernel

end SecurityRules
