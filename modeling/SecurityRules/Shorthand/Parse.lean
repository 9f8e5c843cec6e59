/-
  SecurityRules.Shorthand.Parse
  ────────────────────────────────
  **READING PREDICATES.**

  A text is a predicate when it is one expression with layout around it.  An
  expression that is a single clause becomes the predicate with that clause as
  its only term.
-/
import SecurityRules.Shorthand.Expression
import SecurityRules.Shorthand.SyntaxError

namespace SecurityRules

open SecurityRules.Shorthand

/-- The syntax error for a text of which `rest` was left. -/
def SyntaxError.stoppedAt (s rest : List Char) (notes : List Note) : SyntaxError :=
  ⟨textBefore s rest, rest, notes⟩

/-- Reads a whole text as a predicate. -/
def Predicate.parseChars (s : List Char) : Except SyntaxError Predicate :=
  match (expression s).noting .predicate with
  | .failed stop => .error (.stoppedAt s stop.rest stop.notes)
  | .found term rest =>
      match afterLayout rest with
      | [] => .ok term.toJunction
      | left => .error (.stoppedAt s left [])

/-- Reads a predicate in the shorthand. -/
def Predicate.parse (text : String) : Except SyntaxError Predicate :=
  Predicate.parseChars text.toList

theorem Predicate.parseChars_eq_ok {s : List Char} {p : Predicate} :
    Predicate.parseChars s = .ok p ↔
      ∃ term rest, expression s = .found term rest ∧ afterLayout rest = []
        ∧ term.toJunction = p := by
  unfold Predicate.parseChars
  cases h : expression s with
  | failed stop => simp
  | found term rest =>
      simp only [Reading.noting_found, Reading.found.injEq]
      split <;> grind

end SecurityRules
