/-
  SecurityRules.Proofs.Shorthand.Termination
  ────────────────────────────────
  **READING COMES TO AN END.**

  `expression` asks whether the text inside a group is shorter before it reads
  on, and `Reading.many` breaks off when a round took nothing.  Here the same
  readers are given as rules without such safeguards: a group contains an
  expression, whatever its text, and a repetition (`Repeats`) goes on as long as
  members are found.  A derivation from these rules is a finite tree of calls, so
  a reading that went on for ever, or got stuck, would have none.

    * `endsAs_link`, `endsAs_chain`, `endsAs_term` — one step for each way of
      combining readers, over what is known of the readers that are combined;
    * `endsAs_expression` — by induction on the text left, an expression ends,
      and as `expression` says;
    * `readersAdvanceAt` — every reader leaves an end of its text, and all but a
      few take something.

  Main statement: `Predicate.parse_terminates`.
-/
import SecurityRules.Proofs.Result
import SecurityRules.Proofs.Shorthand.Completeness
import SecurityRules.Proofs.Shorthand.Repetition

namespace SecurityRules.Shorthand

/-! ## §1. The readers as rules. -/

section Rules

variable (c : Connective) (Member Inner : List Char → Reading Term → Prop)

-- The place comes last among the variables of a rule: it is no parameter of
-- these relations, or none of them could stand inside `ExpressionEnds`.

/-- How reading a connective and the member behind it ends. -/
inductive LinkEnds : List Char → Reading Term → Prop where
  | missing {s : List Char} (h : afterConnective c (afterLayout s) = none) :
      LinkEnds s (.miss s)
  | member {x : Reading Term} {s rest : List Char}
      (h : afterConnective c (afterLayout s) = some rest) (hmember : Member rest x) :
      LinkEnds s x.commit

/-- How reading members joined by a connective ends. -/
inductive ChainEnds : List Char → Reading Term → Prop where
  | missing {stop : Stop} {s : List Char} (hfirst : Member s (.failed stop)) :
      ChainEnds s (.failed stop)
  | members {first : Term} {x : Reading (List Term)} {s rest : List Char}
      (hfirst : Member s (.found first rest)) (hmore : Repeats (LinkEnds c Member) rest x) :
      ChainEnds s (x.map fun more => c.gather (first :: more))

/-- Whether a term at `s` goes into a group, to read an expression at `inside`. -/
def Enters (s inside : List Char) : Prop :=
  afterLayout s = '(' :: inside

/-- How reading a term ends. -/
inductive TermEnds : List Char → Reading Term → Prop where
  | group {x : Reading Term} {s inside : List Char} (henter : Enters s inside)
      (hinner : Inner inside x) :
      TermEnds s (((x.andThen closeGroup).orElse fun _ =>
        (clause (afterLayout s)).map .leaf).noting .expression)
  | clause {s : List Char} (hnone : ∀ inside, ¬Enters s inside) :
      TermEnds s (((clause (afterLayout s)).map .leaf).noting .expression)

end Rules

/-- `ExpressionEnds s x`: reading an expression at `s` comes to an end, with
`x`. -/
inductive ExpressionEnds : List Char → Reading Term → Prop where
  | behindLayout {s : List Char} {x : Reading Term}
      (h : ChainEnds .any (ChainEnds .all (TermEnds ExpressionEnds)) (afterLayout s) x) :
      ExpressionEnds s x

/-- `ParseEnds s result`: reading the whole text `s` as a predicate comes to an
end, with `result`. -/
inductive ParseEnds (s : List Char) : Except SyntaxError Predicate → Prop where
  | stopped {stop : Stop} (h : ExpressionEnds s (.failed stop)) :
      ParseEnds s (.error (.stoppedAt s stop.rest (stop.notes ++ [.predicate])))
  | whole {term : Term} {rest : List Char} (h : ExpressionEnds s (.found term rest))
      (hend : afterLayout rest = []) : ParseEnds s (.ok term.toJunction)
  | leftOver {term : Term} {rest : List Char} (h : ExpressionEnds s (.found term rest))
      (hleft : afterLayout rest ≠ []) :
      ParseEnds s (.error (.stoppedAt s (afterLayout rest) []))

/-! ## §2. One step for each way of combining readers. -/

section Steps

variable {c : Connective} {Member Inner : List Char → Reading Term → Prop}
  {member inner : List Char → Reading Term} {s : List Char}

/-- A link ends by its rules as the function says, if its member does. -/
theorem endsAs_link (hmember : ∀ r, r <:+ s → EndsAs Member member r) :
    EndsAs (LinkEnds c Member) (link c member) s := by
  intro x
  unfold link
  cases hs : afterConnective c (afterLayout s) with
  | none =>
      constructor
      · intro h
        cases h with
        | missing => rfl
        | member h => simp [hs] at h
      · -- one of the rules fits, and the reader says which
        rintro rfl
        exact .missing hs
  | some rest =>
      have hrest : rest <:+ s := (afterConnective_suffix hs).1.trans (afterLayout_suffix s)
      constructor
      · intro h
        cases h with
        | missing h => simp [hs] at h
        | member h hx =>
            cases hs.symm.trans h
            rw [(hmember rest hrest).unique rfl hx]
      · rintro rfl
        exact .member hs ((hmember rest hrest).ends rfl)

/-- So does a chain, provided that its members take something: only then may the
repetition go on without a safeguard. -/
theorem endsAs_chain (hmember : ∀ r, r <:+ s → EndsAs Member member r)
    (hadv : ∀ r, Reading.AdvancesAt member r) :
    EndsAs (ChainEnds c Member) (chain c member) s := by
  intro x
  have hfirst := hmember s (List.suffix_refl s)
  unfold chain
  cases hs : member s with
  | failed stop =>
      constructor
      · intro h
        cases h with
        | missing h => exact hfirst.unique hs h
        | members h => cases hfirst.unique hs h
      · rintro rfl
        exact .missing (hfirst.ends hs)
  | found first rest =>
      -- the readings of the members all start at ends of `s`
      have hrest : rest <:+ s := (hadv s first rest hs).1
      -- the members behind the first one are a repetition of links that advance
      have hmore : EndsAs (Repeats (LinkEnds c Member)) (Reading.many (link c member)) rest :=
        endsAs_repeats
          (fun r hr => endsAs_link fun q hq => hmember q (hq.trans (hr.trans hrest)))
          fun _ _ => advancesAt_link fun q _ => hadv q
      constructor
      · intro h
        cases h with
        | missing h => cases hfirst.unique hs h
        | members h hx =>
            cases hfirst.unique hs h
            rw [hmore.unique rfl hx]
            rfl
      · rintro rfl
        exact .members (hfirst.ends hs) (hmore.ends rfl)

/-- A group lies behind its parenthesis. -/
theorem suffix_of_enters {inside : List Char} (h : Enters s inside) :
    inside <:+ s ∧ inside.length < s.length := by
  have hs : '(' :: inside <:+ s := h ▸ afterLayout_suffix s
  exact ⟨(List.suffix_cons _ _).trans hs, Nat.lt_of_succ_le hs.length_le⟩

/-- Without a parenthesis there is no group. -/
theorem groupWith_of_not_enters (h : ∀ inside, ¬Enters s inside) :
    groupWith inner (afterLayout s) = .miss (afterLayout s) := by
  unfold groupWith
  split
  · next inside heq => exact absurd heq (h inside)
  · rfl

/-- Reading a term asks for expressions in the group that it enters only. -/
theorem endsAs_term (hinner : ∀ inside, Enters s inside → EndsAs Inner inner inside) :
    EndsAs (TermEnds Inner) (termWith inner) s := by
  intro x
  unfold termWith termHereWith
  by_cases hs : ∃ inside, Enters s inside
  · obtain ⟨inside, henter⟩ := hs
    have hgroup : groupWith inner (afterLayout s) = (inner inside).andThen closeGroup := by
      rw [henter]
      rfl
    rw [hgroup]
    constructor
    · intro h
      cases h with
      | group henter' hx =>
          cases henter.symm.trans henter'
          rw [(hinner inside henter).unique rfl hx]
      | clause hnone => exact absurd henter (hnone inside)
    · rintro rfl
      exact .group henter ((hinner inside henter).ends rfl)
  · -- without a parenthesis only the second rule is left
    have hnone : ∀ inside, ¬Enters s inside := fun inside h => hs ⟨inside, h⟩
    rw [groupWith_of_not_enters hnone]
    constructor
    · intro h
      cases h with
      | group henter _ => exact absurd henter (hnone _)
      | clause => rfl
    · rintro rfl
      exact .clause hnone

end Steps

/-! ## §3. The recursion through groups. -/

/-- Reading an expression skips layout first, so that layout may as well be
skipped before. -/
theorem expression_afterLayout (s : List Char) : expression (afterLayout s) = expression s := by
  have hterm : termWith expression (afterLayout s) = termWith expression s := by
    unfold termWith
    rw [afterLayout_afterLayout]
  rw [expression_eq, expression_eq s]
  unfold expressionWith chain
  rw [hterm]

/-- How reading an expression ends whose groups contain what `Inner` says. -/
def EndsOver (Inner : List Char → Reading Term → Prop) (s : List Char) (x : Reading Term) :
    Prop :=
  ChainEnds .any (ChainEnds .all (TermEnds Inner)) (afterLayout s) x

theorem expressionEnds_iff {s : List Char} {x : Reading Term} :
    ExpressionEnds s x ↔ EndsOver ExpressionEnds s x := by
  constructor
  · intro h
    cases h with
    | behindLayout h => exact h
  · exact .behindLayout

/-- An expression ends as `expression` says, provided that the expressions in
its groups do. All of these stand at proper ends of its text. -/
theorem endsAs_endsOver {Inner : List Char → Reading Term → Prop} {s : List Char}
    (hinner : ∀ r, r <:+ s → r.length < s.length → EndsAs Inner expression r) :
    EndsAs (EndsOver Inner) expression s := by
  have hterm : ∀ r, r <:+ s → EndsAs (TermEnds Inner) (termWith expression) r := by
    intro r hr
    refine endsAs_term fun inside henter => ?_
    obtain ⟨hs, hlt⟩ := suffix_of_enters henter
    exact hinner inside (hs.trans hr) (Nat.lt_of_lt_of_le hlt hr.length_le)
  have hall : ∀ r, r <:+ s →
      EndsAs (ChainEnds .all (TermEnds Inner)) (chain .all (termWith expression)) r :=
    fun r hr => endsAs_chain (fun q hq => hterm q (hq.trans hr)) (Level.advancesAt_reader .term)
  -- the same step twice, for conjunctions and for what joins them
  have hany : EndsAs (ChainEnds .any (ChainEnds .all (TermEnds Inner)))
      (chain .any (chain .all (termWith expression))) (afterLayout s) :=
    endsAs_chain (fun r hr => hall r (hr.trans (afterLayout_suffix s)))
      (Level.advancesAt_reader (.chain .all))
  have heq : chain .any (chain .all (termWith expression)) (afterLayout s) = expression s := by
    rw [← expression_afterLayout, expression_eq]
    rfl
  intro x
  rw [← heq]
  exact hany x

/-- **Reading an expression comes to an end at every text**, in one way only. -/
theorem endsAs_expression (s : List Char) : EndsAs ExpressionEnds expression s := by
  induction hn : s.length using Nat.strongRecOn generalizing s with
  -- every group lies at a proper end of the text around it
  | ind n ih =>
      have hover : EndsAs (EndsOver ExpressionEnds) expression s :=
        endsAs_endsOver fun r _ hlt => ih r.length (hn ▸ hlt) r rfl
      exact fun x => expressionEnds_iff.trans (hover x)

/-- How reading an expression at `s` ends when its groups may contain no
expressions but at proper ends of `s`. -/
def EndsInside (s : List Char) : Reading Term → Prop :=
  EndsOver (fun r x => r <:+ s ∧ r.length < s.length ∧ ExpressionEnds r x) s

/-- A reading that enters groups at proper ends of its text only misses
nothing. -/
theorem endsAs_endsInside (s : List Char) : EndsAs EndsInside expression s := by
  have hinner : ∀ r, r <:+ s → r.length < s.length →
      EndsAs (fun r x => r <:+ s ∧ r.length < s.length ∧ ExpressionEnds r x) expression r := by
    intro r hr hlt x
    rw [← endsAs_expression r x]
    exact ⟨fun h => h.2.2, fun h => ⟨hr, hlt, h⟩⟩
  exact endsAs_endsOver hinner

/-- **Reading a whole text comes to an end**, in one way only. -/
theorem parseEnds_iff {s : List Char} {result : Except SyntaxError Predicate} :
    ParseEnds s result ↔ result = Predicate.parseChars s := by
  have hs := endsAs_expression s
  unfold Predicate.parseChars
  constructor
  · intro h
    cases h with
    | stopped h =>
        -- rules and reader agree on the expression, so only the end of the text is left
        rw [← hs.unique rfl h]
        rfl
    | whole h hend =>
        rw [← hs.unique rfl h]
        simp only [Reading.noting_found, hend]
    | leftOver h hleft =>
        obtain ⟨c, left, heq⟩ := List.exists_cons_of_ne_nil hleft
        rw [← hs.unique rfl h]
        simp only [Reading.noting_found, heq]
  · rintro rfl
    cases hread : expression s with
    | failed stop => exact .stopped (hs.ends hread)
    | found term rest =>
        have hfound : ExpressionEnds s (.found term rest) := hs.ends hread
        simp only [Reading.noting_found]
        split
        · next hend => exact .whole hfound hend
        · next hleft => exact .leftOver hfound hleft

/-! ## §4. What each reader leaves. -/

/-- Whether every reader of the shorthand leaves an end of `s`, and takes
something of it unless it reads what may be missing. -/
structure ReadersAdvanceAt (s : List Char) : Prop where
  layout : afterLayout s <:+ s
  keyword : ∀ word rest, afterKeyword word s = some rest → rest <:+ s
  name : Reading.AdvancesAt name s
  path : Reading.AdvancesAt path s
  /-- The rest of a quoted text, behind its first quote. -/
  quoteEnd : ∀ quote rest, afterQuote quote s = some rest → rest <:+ s
  quoted : Reading.AdvancesAt quoted s
  /-- Lists and the arguments of calls alike. -/
  bracketed : ∀ opening closing, Reading.AdvancesAt (bracketed opening closing) s
  calls : ∀ us rest, Reading.many callSuffix s = .found us rest → rest <:+ s
  bareWord : Reading.AdvancesAt bareWord s
  fieldOperand : Reading.AdvancesAt fieldOperand s
  lookupOperand : Reading.AdvancesAt lookupOperand s
  operand : Reading.AdvancesAt operand s
  operator : ∀ op rest, operator? s = some (op, rest) → rest <:+ s ∧ rest.length < s.length
  clause : Reading.AdvancesAt clause s
  /-- Terms, conjunctions and alternatives. -/
  level : ∀ l : Level, Reading.AdvancesAt l.reader s
  expression : Reading.AdvancesAt (fun r => expression (afterLayout r)) s
  /-- A whole text, up to the layout behind its expression. -/
  whole : ∀ term rest, Shorthand.expression s = .found term rest → afterLayout rest <:+ s

theorem length_lt_of_operator? {s rest : List Char} {op : Operator}
    (h : operator? s = some (op, rest)) : rest.length < s.length := by
  have hpos : 0 < op.spelling.toList.length := by
    cases op <;> decide
  -- no operator is spelled by the empty text
  have hlen := congrArg List.length (eq_append_of_operator? h)
  rw [List.length_append] at hlen
  have hle := length_afterLayout_le s
  omega

/-- Every reader leaves an end of its text. -/
theorem readersAdvanceAt (s : List Char) : ReadersAdvanceAt s where
  layout := afterLayout_suffix s
  keyword _ _ h := ⟨_, (afterKeyword_eq_some.1 h).1.symm⟩
  name := advancesAt_name s
  path := advancesAt_path s
  quoteEnd _ _ h := afterQuote_suffix h
  quoted := advancesAt_quoted s
  bracketed opening closing := advancesAt_bracketed opening closing s
  calls _ _ h := Reading.suffix_of_many (fun r _ => advancesAt_callSuffix r) h
  bareWord := advancesAt_bareWord s
  fieldOperand := advancesAt_fieldOperand s
  lookupOperand := advancesAt_lookupOperand s
  operand := advancesAt_operand s
  operator _ _ h := ⟨operator?_suffix h, length_lt_of_operator? h⟩
  clause := advancesAt_clause s
  level l := l.advancesAt_reader s
  expression term rest h := advancesAt_expression s term rest (expression_afterLayout s ▸ h)
  whole term rest h := (afterLayout_suffix rest).trans (advancesAt_expression s term rest h).1

end SecurityRules.Shorthand

/-! ## §5. The main statement. -/

namespace SecurityRules

open SecurityRules.Shorthand

/-- **Reading a predicate makes progress and comes to an end**, whatever the
text, its length and the depth of its groups:

  * every reader leaves an end of its text, and takes something unless it reads
    what may be missing;
  * in each of the four repetitions, of layout, of calls and of the members of
    the two chains, a round takes something, and the repetition ends without a
    safeguard;
  * a group contains an expression at a proper end of the text around it;
  * by rules that get stuck where a round takes nothing, and that read a group
    however long it is, every text is read to an end, in one way only, and this
    is the predicate or the error that `parse` gives. -/
theorem Predicate.parse_terminates (s : List Char) :
    ReadersAdvanceAt s
      ∧ (LoopAt layoutPiece s
        ∧ (∃ pieces, Reading.many layoutPiece s = .found pieces (afterLayout s))
        ∧ LoopAt callSuffix s
        ∧ ∀ c, LoopAt (link c (Level.memberOf c).reader) s)
      ∧ ((∀ inside, Enters s inside → inside <:+ s ∧ inside.length < s.length)
        ∧ EndsAs EndsInside expression s)
      ∧ ∀ result, ParseEnds s result ↔ result = Predicate.parse (String.ofList s) := by
  have hparse : Predicate.parse (String.ofList s) = Predicate.parseChars s := by
    rw [Predicate.parse, String.toList_ofList]
  refine ⟨readersAdvanceAt s, ⟨?_, ?_, ?_, ?_⟩, ⟨?_, ?_⟩, ?_⟩
  · exact loopAt_layoutPiece s
  · exact many_layoutPiece s
  · exact loopAt_callSuffix s
  · exact fun c => loopAt_link c s
  · exact fun _ => suffix_of_enters
  · exact endsAs_endsInside s
  · intro result
    rw [hparse]
    exact parseEnds_iff

/-- A group, a call and a last comment are read to the end by the rules alone. -/
theorem Predicate.parse_terminates_grouped :
    Enters "(b OR f(x)) AND c # end".toList "b OR f(x)) AND c # end".toList
      ∧ "b OR f(x)) AND c # end".toList.length < "(b OR f(x)) AND c # end".toList.length
      ∧ ParseEnds "(b OR f(x)) AND c # end".toList (.ok ⟨.all,
          [.node .any [.leaf (.literal "b"), .leaf (.literal "f(x)")],
            .leaf (.literal "c")]⟩) := by
  obtain ⟨-, -, ⟨hgroup, -⟩, hends⟩ :=
    Predicate.parse_terminates "(b OR f(x)) AND c # end".toList
  have henter : Enters "(b OR f(x)) AND c # end".toList "b OR f(x)) AND c # end".toList := by
    unfold Enters
    decide +kernel
  have hparse : Predicate.parse (String.ofList "(b OR f(x)) AND c # end".toList) = .ok ⟨.all,
      [.node .any [.leaf (.literal "b"), .leaf (.literal "f(x)")], .leaf (.literal "c")]⟩ :=
    Except.eq_ok_of_toOption (by decide +kernel)
  exact ⟨henter, (hgroup _ henter).2, (hends _).2 hparse.symm⟩

end SecurityRules
