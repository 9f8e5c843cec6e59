/-
  SecurityRules.Formula.Rendering
  ────────────────────────────────
  **RULES AS TEXT.**

  A `Rule` is a tree over expression texts.  Rendering drops blank
  expressions, writes a single remaining part bare, and puts two or more into
  one pair of parentheses, joined by the symbol of the connective.  A junction
  with nothing left cannot be rendered: `Fault.emptyRule`, however deep it
  stands.
-/
import SecurityRules.Text.Character
import SecurityRules.Formula.Basic
import SecurityRules.Fault

namespace SecurityRules

/-- A tree over expression texts: what a predicate becomes in a scope. -/
abbrev Rule := Junction String

/-- An expression text as a part of a rule. -/
abbrev Formula.text (expression : String) : Formula String :=
  .leaf expression

/-- Texts joined by a connective: one text stands bare, more share one pair of
parentheses, none is a fault. -/
def Connective.enclose (c : Connective) : List String → Except Fault String
  | [] => .error .emptyRule
  | [text] => .ok text
  | texts => .ok ("(" ++ (" " ++ c.symbol ++ " ").intercalate texts ++ ")")

mutual

/-- The text of one part; `none` for a blank expression. -/
def Formula.render : Formula String → Except Fault (Option String)
  | .leaf expression => .ok (if Text.isBlank expression then none else some expression)
  | .node c parts => do
      let texts ← Formula.renderAll parts
      let text ← c.enclose texts
      return some text

/-- The texts of the parts that are not blank, in order. -/
def Formula.renderAll : List (Formula String) → Except Fault (List String)
  | [] => .ok []
  | part :: parts => do
      let text ← Formula.render part
      let texts ← Formula.renderAll parts
      return text.toList ++ texts

end

/-- The text of a rule. -/
def Rule.render (rule : Rule) : Except Fault String := do
  let texts ← Formula.renderAll rule.parts
  rule.connective.enclose texts

end SecurityRules
