/-
  SecurityRules.Proofs.Shorthand.Joint
  ────────────────────────────────
  **WHERE OPERATORS AND CONNECTIVES ARE READ.**

  Operators and connectives are told from what they join by the character
  behind them.  Behind each of them a gap or a parenthesis is enough
  (`Operator.endsBefore_of_head`, `afterConnective_of_head`).

  The other way round, nothing that may stand behind a term — a closing
  parenthesis, a connective of its own or of a looser chain, the end of the
  text — is taken for an operator or for a connective of a tighter chain.
-/
import SecurityRules.Shorthand.Expression
import SecurityRules.Proofs.Shorthand.Gap

namespace SecurityRules

open SecurityRules.Text
open SecurityRules.Shorthand

/-! ## §1. Operators. -/

/-- Whether an operator is read as itself in front of `rest`. -/
def Operator.EndsBefore (op : Operator) (rest : List Char) : Prop :=
  operatorHere? (op.spelling.toList ++ rest) = some (op, rest)

theorem Operator.endsBefore_of_head {op : Operator} {c : Char} {s : List Char}
    (hw : isWordChar c = false) (he : '=' ≠ c) (hm : '-' ≠ c) : op.EndsBefore (c :: s) := by
  cases op <;>
    simp [Operator.EndsBefore, operatorHere?, operatorOrder, afterOperator, afterKeyword,
      afterSymbol, Operator.spelling, Operator.isWord, isPrefixOf?_nil, isPrefixOf?_cons,
      hw, he, hm]

theorem Operator.exists_cons (op : Operator) :
    ∃ c s, op.spelling.toList = c :: s ∧ opensGap c = false := by
  cases op <;> exact ⟨_, _, rfl, by decide⟩

namespace Shorthand

/-- No operator is read where none is spelled. -/
theorem operatorHere?_eq_none {s : List Char}
    (h : ∀ op : Operator, afterSymbol op.spelling s = none) : operatorHere? s = none := by
  refine List.findSome?_eq_none_iff.2 fun op _ => ?_
  have hnone : afterOperator op s = none := by
    unfold afterOperator
    split
    · rw [afterKeyword, h op]
      rfl
    · exact h op
  rw [hnone]
  rfl

/-- An operator is read behind layout where its spelling stands and ends. -/
theorem operator?_eq_some_iff {s rest : List Char} {op : Operator} :
    operator? s = some (op, rest) ↔
      afterLayout s = op.spelling.toList ++ rest ∧ op.EndsBefore rest := by
  constructor
  · intro h
    have hs := eq_append_of_operator? h
    rw [operator?, hs] at h
    exact ⟨hs, h⟩
  · intro h
    obtain ⟨hs, hends⟩ := h
    rw [operator?, hs]
    exact hends

/-! ## §2. Connectives. -/

/-- The three ways to spell a connective. -/
inductive Spelling where
  | upper
  | lower
  | symbol
  deriving DecidableEq

def Spelling.text (c : Connective) : Spelling → String
  | upper => c.keyword
  | lower => match c with
    | .all => "and"
    | .any => "or"
  | symbol => c.symbol

/-- What joins two members of a chain: a connective with layout around it. -/
structure Joint (c : Connective) where
  before : Gap
  spelling : Spelling
  after : Gap

namespace Joint

variable {c : Connective}

def text (joint : Joint c) : List Char :=
  Gap.text joint.before ++ ((joint.spelling.text c).toList ++ Gap.text joint.after)

/-- Whether a joint is read as itself in front of `rest`. -/
def EndsBefore (joint : Joint c) (rest : List Char) : Prop :=
  afterConnective c ((joint.spelling.text c).toList ++ (Gap.text joint.after ++ rest))
    = some (Gap.text joint.after ++ rest)

/-- The joint between the terms of a junction in the shorthand. -/
def spaced : Joint c :=
  ⟨Gap.space, .upper, Gap.space⟩

/-- The joint between the parts of a rendered rule. -/
def rendered : Joint c :=
  ⟨Gap.space, .symbol, Gap.space⟩

theorem text_rendered : (" " ++ c.symbol ++ " ").toList = (rendered : Joint c).text := by
  cases c <;> rfl

theorem text_spaced : (" " ++ c.keyword ++ " ").toList = (spaced : Joint c).text := by
  cases c <;> rfl

end Joint

variable {c : Connective}

/-- Each text of a connective is one of its spellings. -/
theorem exists_spelling {text : String} (h : text ∈ c.symbol :: connectiveWords c) :
    ∃ spelling : Spelling, text = spelling.text c := by
  cases c <;> simp only [connectiveWords, Connective.symbol, List.mem_cons, List.not_mem_nil,
    or_false] at h <;> rcases h with rfl | rfl | rfl
  · exact ⟨.symbol, rfl⟩
  · exact ⟨.upper, rfl⟩
  · exact ⟨.lower, rfl⟩
  · exact ⟨.symbol, rfl⟩
  · exact ⟨.upper, rfl⟩
  · exact ⟨.lower, rfl⟩

theorem Spelling.exists_cons (c : Connective) (spelling : Spelling) :
    ∃ d s, (spelling.text c).toList = d :: s ∧ opensGap d = false := by
  cases c <;> cases spelling <;> exact ⟨_, _, rfl, by decide⟩

/-- Behind the gap of a joint stands its connective. -/
theorem Joint.afterLayout_text (joint : Joint c) (rest : List Char) :
    afterLayout (joint.text ++ rest)
      = (joint.spelling.text c).toList ++ (Gap.text joint.after ++ rest) := by
  obtain ⟨d, s, hs, hd⟩ := joint.spelling.exists_cons c
  rw [Joint.text, List.append_assoc, List.append_assoc, hs]
  exact afterLayout_gap_cons joint.before hd _

/-- A connective is read where no word runs on from it. -/
theorem afterConnective_of_head (spelling : Spelling) {rest : List Char}
    (hr : rest.head?.any isWordChar = false) :
    afterConnective c ((spelling.text c).toList ++ rest) = some rest := by
  cases c <;> cases spelling <;>
    simp [afterConnective, connectiveWords, Spelling.text, Connective.keyword, Connective.symbol,
      afterKeyword, afterSymbol, isPrefixOf?_nil, isPrefixOf?_cons, Option.filter, hr]

/-- A connective is not read as an operator. -/
theorem operatorHere?_spelling (spelling : Spelling) (rest : List Char) :
    operatorHere? ((spelling.text c).toList ++ rest) = none := by
  refine operatorHere?_eq_none fun op => ?_
  cases c <;> cases spelling <;> cases op <;> rfl

/-- A conjunction ends where an alternative follows. -/
theorem afterConnective_all_spelling_any (spelling : Spelling) (rest : List Char) :
    afterConnective .all ((spelling.text .any).toList ++ rest) = none := by
  cases spelling <;> rfl

end Shorthand

end SecurityRules
