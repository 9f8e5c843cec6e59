/-
  SecurityRules.Shorthand.Clauses
  ────────────────────────────────
  **OPERANDS, OPERATORS AND CLAUSES.**

  A clause is a condition, `operand operator operand`, or a literal that
  stands alone.  Whether an operator follows the first operand is found out by
  trying: if none does, the clause ends right behind the operand.  A field on
  its own has no truth value, so reading stops there for good.
-/
import SecurityRules.Predicate.Basic
import SecurityRules.Shorthand.Layout
import SecurityRules.Shorthand.Words

namespace SecurityRules.Shorthand

/-! ## §1. Operands. -/

/-- Reads `$name`. -/
def fieldOperand : List Char → Reading Operand
  | '$' :: rest => (name rest).commit.map fun n => .field (.ofName n)
  | s => .miss s

/-- Reads the `.path` of a lookup through the field `via`. -/
def lookupPath (via : String) : List Char → Reading Operand
  | '.' :: rest => ((path rest).commit.noting .path).map fun p => .lookup (.ofName via) p
  | s => .refuse s []

/-- Reads `@name.path`. -/
def lookupOperand : List Char → Reading Operand
  | '@' :: rest => (name rest).commit.andThen lookupPath
  | s => .miss s

/-- Reads an operand where one starts. -/
def operandHere (s : List Char) : Reading Operand :=
  (fieldOperand s).orElse fun _ =>
  (lookupOperand s).orElse fun _ =>
  ((verbatim quoted s).map .literal).orElse fun _ =>
  ((verbatim bracketList s).map .literal).orElse fun _ =>
  (bareWord s).map .literal

/-- Reads an operand behind layout. -/
def operand (s : List Char) : Reading Operand :=
  (operandHere (afterLayout s)).noting .operand

/-! ## §2. Operators. -/

/-- The text behind the spelling of `op`. An operator spelled in letters has
to end where the word ends. -/
def afterOperator (op : Operator) (s : List Char) : Option (List Char) :=
  if op.isWord then afterKeyword op.spelling s else afterSymbol op.spelling s

/-- The order in which operators are tried: one whose spelling starts with that
of another comes first. -/
def operatorOrder : List Operator :=
  [.equal, .notEqual, .lessOrEqual, .less, .greaterOrEqual, .greater,
    .containsAny, .contains, .notMemberOf, .memberOf, .ofType]

/-- The operator that stands here, and the text behind it. -/
def operatorHere? (s : List Char) : Option (Operator × List Char) :=
  operatorOrder.findSome? fun op => (afterOperator op s).map fun rest => (op, rest)

/-- The operator behind layout, and the text behind it. -/
def operator? (s : List Char) : Option (Operator × List Char) :=
  operatorHere? (afterLayout s)

/-! ## §3. Clauses. -/

/-- Goes on behind the first operand of a clause. -/
def clauseFrom (left : Operand) (s : List Char) : Reading Clause :=
  match operator? s with
  | some (op, rest) => (operand rest).commit.map fun right => .condition ⟨left, op, right⟩
  | none =>
      match left with
      | .literal text => .found (.literal text) s
      -- a field on its own has no truth value
      | _ => .refuse s []

/-- Reads a clause. -/
def clause (s : List Char) : Reading Clause :=
  (operand s).andThen clauseFrom

/-! ## §4. Progress. -/

theorem advancesAt_fieldOperand (s : List Char) : Reading.AdvancesAt fieldOperand s := by
  intro v rest h
  unfold fieldOperand at h
  split at h
  · next s' =>
      obtain ⟨n, hn, -⟩ := Reading.map_eq_found.1 h
      obtain ⟨hs, hlt⟩ := advancesAt_name s' n rest (Reading.commit_eq_found.1 hn)
      exact ⟨hs.trans (List.suffix_cons _ _), Nat.lt_succ_of_lt hlt⟩
  · simp [Reading.miss] at h

/-- The path of a lookup takes its dot. -/
theorem advancesAt_lookupPath (via : String) (s : List Char) :
    Reading.AdvancesAt (lookupPath via) s := by
  intro v rest h
  unfold lookupPath at h
  split at h
  · next s' =>
      obtain ⟨p, hp, -⟩ := Reading.map_eq_found.1 h
      obtain ⟨hs, hlt⟩ := advancesAt_path s' p rest
        (Reading.commit_eq_found.1 (Reading.noting_eq_found.1 hp))
      exact ⟨hs.trans (List.suffix_cons _ _), Nat.lt_succ_of_lt hlt⟩
  · simp [Reading.refuse] at h

theorem advancesAt_lookupOperand (s : List Char) : Reading.AdvancesAt lookupOperand s := by
  intro v rest h
  unfold lookupOperand at h
  split at h
  · next s' =>
      obtain ⟨n, mid, hn, hrest⟩ := Reading.andThen_eq_found.1 h
      obtain ⟨hs, hlt⟩ := advancesAt_name s' n mid (Reading.commit_eq_found.1 hn)
      obtain ⟨hs', hlt'⟩ := advancesAt_lookupPath n mid v rest hrest
      exact ⟨(hs'.trans hs).trans (List.suffix_cons _ _),
        Nat.lt_succ_of_lt (Nat.lt_trans hlt' hlt)⟩
  · simp [Reading.miss] at h

/-- Each of the three kinds of operand takes something. -/
theorem advancesAt_operandHere (s : List Char) : Reading.AdvancesAt operandHere s := by
  intro v rest h
  rcases Reading.orElse_eq_found.1 h with h | ⟨-, -, -, h⟩
  · exact advancesAt_fieldOperand s v rest h
  rcases Reading.orElse_eq_found.1 h with h | ⟨-, -, -, h⟩
  · exact advancesAt_lookupOperand s v rest h
  rcases Reading.orElse_eq_found.1 h with h | ⟨-, -, -, h⟩
  · exact (advancesAt_verbatim (advancesAt_quoted s)).map _ v rest h
  rcases Reading.orElse_eq_found.1 h with h | ⟨-, -, -, h⟩
  · exact (advancesAt_verbatim (advancesAt_bracketed '[' ']' s)).map _ v rest h
  · exact (advancesAt_bareWord s).map _ v rest h

theorem advancesAt_operand (s : List Char) : Reading.AdvancesAt operand s := by
  intro v rest h
  obtain ⟨hs, hlt⟩ := advancesAt_operandHere _ v rest (Reading.noting_eq_found.1 h)
  exact ⟨hs.trans (afterLayout_suffix s), Nat.lt_of_lt_of_le hlt (length_afterLayout_le s)⟩

/-- An operator is found where its spelling stands. -/
theorem eq_append_of_operator? {s rest : List Char} {op : Operator}
    (h : operator? s = some (op, rest)) : afterLayout s = op.spelling.toList ++ rest := by
  obtain ⟨op', -, hop⟩ := List.exists_of_findSome?_eq_some h
  obtain ⟨rest', hrest, heq⟩ := Option.map_eq_some_iff.1 hop
  cases heq
  unfold afterOperator at hrest
  split at hrest
  · exact (afterKeyword_eq_some.1 hrest).1
  · exact afterSymbol_eq_some.1 hrest

theorem operator?_suffix {s rest : List Char} {op : Operator}
    (h : operator? s = some (op, rest)) : rest <:+ s := by
  have hrest : rest <:+ afterLayout s := ⟨_, (eq_append_of_operator? h).symm⟩
  exact hrest.trans (afterLayout_suffix s)

/-- Behind an operand there may be an operator with a second one, or nothing. -/
theorem clauseFrom_suffix {left : Operand} {s rest : List Char} {c : Clause}
    (h : clauseFrom left s = .found c rest) : rest <:+ s := by
  unfold clauseFrom at h
  split at h
  · next op mid hop =>
      obtain ⟨right, hright, -⟩ := Reading.map_eq_found.1 h
      have hmid := (advancesAt_operand mid right rest (Reading.commit_eq_found.1 hright)).1
      exact hmid.trans (operator?_suffix hop)
  · split at h
    · cases h
      exact List.suffix_refl _
    · simp [Reading.refuse] at h

/-- A clause takes its first operand. -/
theorem advancesAt_clause (s : List Char) : Reading.AdvancesAt clause s := by
  intro c rest h
  obtain ⟨left, mid, hleft, hrest⟩ := Reading.andThen_eq_found.1 h
  obtain ⟨hs, hlt⟩ := advancesAt_operand s left mid hleft
  have hmid := clauseFrom_suffix hrest
  exact ⟨hmid.trans hs, Nat.lt_of_le_of_lt hmid.length_le hlt⟩

end SecurityRules.Shorthand
