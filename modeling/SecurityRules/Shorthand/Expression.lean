/-
  SecurityRules.Shorthand.Expression
  ────────────────────────────────
  **EXPRESSIONS.**

  Three levels, from loose to tight: alternatives joined by `OR`, conjuncts
  joined by `AND`, and single terms, which are clauses or expressions in
  parentheses.  Each connective has three spellings.  A chain of one is its
  only member; a longer one becomes a single junction with its members in
  order, and a group in parentheses stays one member.

  A group contains a whole expression, so the three levels are written over a
  given reader for what is inside a group (`expressionWith`), and `expression`
  ties the knot.  Main statements:

    * `advancesAt_expression` — an expression takes at least one character;
    * `expression_eq` — a group contains an expression, without any condition
      on its length.
-/
import SecurityRules.Shorthand.Clauses

namespace SecurityRules.Shorthand

/-! ## §1. Chains. -/

/-- The words that spell a connective. Its symbol is a third spelling. -/
def connectiveWords : Connective → List String
  | .all => ["AND", "and"]
  | .any => ["OR", "or"]

/-- The text behind a connective, in any of its spellings. -/
def afterConnective (c : Connective) (s : List Char) : Option (List Char) :=
  match (connectiveWords c).findSome? fun word => afterKeyword word s with
  | some rest => some rest
  | none => afterSymbol c.symbol s

/-- Reads a connective and the member behind it. Behind a connective there has
to be a member. -/
def link (c : Connective) (member : List Char → Reading Term) (s : List Char) : Reading Term :=
  match afterConnective c (afterLayout s) with
  | some rest => (member rest).commit
  | none => .miss s

/-- Reads members joined by a connective. -/
def chain (c : Connective) (member : List Char → Reading Term) (s : List Char) : Reading Term :=
  (member s).andThen fun first rest =>
    (Reading.many (link c member) rest).map fun more => c.gather (first :: more)

/-! ## §2. The three levels. -/

/-- Reads the parenthesis that closes a group around `term`. -/
def closeGroup (term : Term) (s : List Char) : Reading Term :=
  match afterLayout s with
  | ')' :: rest => .found term rest
  | here => .refuse here []

/-- Reads a group in parentheses. -/
def groupWith (inner : List Char → Reading Term) : List Char → Reading Term
  | '(' :: rest => (inner rest).andThen closeGroup
  | s => .miss s

/-- Reads a term where one starts: a group, or else a clause. -/
def termHereWith (inner : List Char → Reading Term) (s : List Char) : Reading Term :=
  ((groupWith inner s).orElse fun _ => (clause s).map .leaf).noting .expression

/-- Reads a term behind layout. -/
def termWith (inner : List Char → Reading Term) (s : List Char) : Reading Term :=
  termHereWith inner (afterLayout s)

/-- Reads an expression whose groups contain what `inner` reads. -/
def expressionWith (inner : List Char → Reading Term) : List Char → Reading Term :=
  chain .any (chain .all (termWith inner))

/-- Reads an expression. What a group contains is shorter than the expression
around it; see `expression_eq` for the equation without that condition. -/
def expression (s : List Char) : Reading Term :=
  expressionWith (fun rest => if rest.length < s.length then expression rest else .miss rest) s
termination_by s.length

/-! ## §3. Progress. -/

/-- A connective is read by one of its spellings. -/
theorem eq_append_of_afterConnective {c : Connective} {s rest : List Char}
    (h : afterConnective c s = some rest) :
    ∃ spelling ∈ c.symbol :: connectiveWords c, s = spelling.toList ++ rest := by
  unfold afterConnective at h
  split at h
  · next found hfound =>
      cases h
      obtain ⟨word, hword, hrest⟩ := List.exists_of_findSome?_eq_some hfound
      exact ⟨word, List.mem_cons_of_mem _ hword, (afterKeyword_eq_some.1 hrest).1⟩
  · exact ⟨c.symbol, List.mem_cons_self, afterSymbol_eq_some.1 h⟩

/-- A connective takes something. -/
theorem afterConnective_suffix {c : Connective} {s rest : List Char}
    (h : afterConnective c s = some rest) : rest <:+ s ∧ rest.length < s.length := by
  obtain ⟨spelling, hmem, rfl⟩ := eq_append_of_afterConnective h
  have hpos : ∀ word ∈ c.symbol :: connectiveWords c, 0 < word.toList.length := by
    cases c <;> decide
  have := hpos spelling hmem
  refine ⟨List.suffix_append _ _, ?_⟩
  rw [List.length_append]
  omega

/-- A link takes its connective before its member is tried, so the member starts
on a shorter text. -/
theorem advancesAt_link {c : Connective} {member : List Char → Reading Term} {s : List Char}
    (hm : ∀ r : List Char, r.length < s.length → Reading.AdvancesAt member r) :
    Reading.AdvancesAt (link c member) s := by
  intro t rest h
  unfold link at h
  split at h
  · next mid hmid =>
      obtain ⟨hs, hlt⟩ := afterConnective_suffix hmid
      have hlt' : mid.length < s.length := Nat.lt_of_lt_of_le hlt (length_afterLayout_le s)
      obtain ⟨hs', hlt''⟩ := hm mid hlt' t rest (Reading.commit_eq_found.1 h)
      exact ⟨(hs'.trans hs).trans (afterLayout_suffix s), Nat.lt_trans hlt'' hlt'⟩
  · simp [Reading.miss] at h

/-- A chain takes its first member and then links, each of which takes
something. -/
theorem advancesAt_chain {c : Connective} {member : List Char → Reading Term} {s : List Char}
    (hm : ∀ r : List Char, r.length ≤ s.length → Reading.AdvancesAt member r) :
    Reading.AdvancesAt (chain c member) s := by
  intro t rest h
  obtain ⟨first, mid, hfirst, hmore⟩ := Reading.andThen_eq_found.1 h
  obtain ⟨more, hmany, -⟩ := Reading.map_eq_found.1 hmore
  obtain ⟨hs, hlt⟩ := hm s (Nat.le_refl _) first mid hfirst
  have hlink : ∀ r : List Char, r.length ≤ mid.length → Reading.AdvancesAt (link c member) r :=
    fun r hr => advancesAt_link fun q hq => hm q (by omega)
  have hrest := Reading.suffix_of_many hlink hmany
  exact ⟨hrest.trans hs, Nat.lt_of_le_of_lt hrest.length_le hlt⟩

/-- A group takes its parenthesis before what is inside it is tried. This is
what makes the recursion of groups end. -/
theorem advancesAt_groupWith {inner : List Char → Reading Term} {s : List Char}
    (hi : ∀ r : List Char, r.length < s.length → Reading.AdvancesAt inner r) :
    Reading.AdvancesAt (groupWith inner) s := by
  intro t rest h
  unfold groupWith at h
  split at h
  · next s' =>
      obtain ⟨u, mid, hmid, hclose⟩ := Reading.andThen_eq_found.1 h
      obtain ⟨hs, hlt⟩ := hi s' (Nat.lt_succ_self _) u mid hmid
      unfold closeGroup at hclose
      split at hclose
      · next behind hbehind =>
          cases hclose
          have hb : rest <:+ mid := by
            have hl := afterLayout_suffix mid
            rw [hbehind] at hl
            exact (List.suffix_cons _ _).trans hl
          exact ⟨(hb.trans hs).trans (List.suffix_cons _ _),
            Nat.lt_succ_of_le (Nat.le_trans hb.length_le (Nat.le_of_lt hlt))⟩
      · simp [Reading.refuse] at hclose
  · simp [Reading.miss] at h

/-- A term is a group or a clause, and either takes something. -/
theorem advancesAt_termWith {inner : List Char → Reading Term} {s : List Char}
    (hi : ∀ r : List Char, r.length < s.length → Reading.AdvancesAt inner r) :
    Reading.AdvancesAt (termWith inner) s := by
  intro t rest h
  have hle := length_afterLayout_le s
  have key : rest <:+ afterLayout s ∧ rest.length < (afterLayout s).length := by
    rcases Reading.orElse_eq_found.1 (Reading.noting_eq_found.1 h) with h | ⟨-, -, -, h⟩
    · exact advancesAt_groupWith (fun r hr => hi r (Nat.lt_of_lt_of_le hr hle)) t rest h
    · exact (advancesAt_clause _).map _ t rest h
  exact ⟨key.1.trans (afterLayout_suffix s), Nat.lt_of_lt_of_le key.2 hle⟩

theorem advancesAt_expressionWith {inner : List Char → Reading Term} {s : List Char}
    (hi : ∀ r : List Char, r.length < s.length → Reading.AdvancesAt inner r) :
    Reading.AdvancesAt (expressionWith inner) s :=
  advancesAt_chain fun _ hr => advancesAt_chain fun _ hq => advancesAt_termWith fun p hp =>
    hi p (by omega)

/-! ## §4. The equation of expressions. -/

/-- What a link reads depends on its member on shorter texts only. -/
theorem link_congr {c : Connective} {member member' : List Char → Reading Term} {s : List Char}
    (h : ∀ r : List Char, r.length < s.length → member r = member' r) :
    link c member s = link c member' s := by
  unfold link
  split
  · next mid hmid =>
      rw [h mid (Nat.lt_of_lt_of_le (afterConnective_suffix hmid).2 (length_afterLayout_le s))]
  · rfl

/-- What a chain reads depends on its member on texts that are no longer than
its own. -/
theorem chain_congr {c : Connective} {member member' : List Char → Reading Term} {s : List Char}
    (hm : Reading.AdvancesAt member s)
    (h : ∀ r : List Char, r.length ≤ s.length → member r = member' r) :
    chain c member s = chain c member' s := by
  unfold chain
  rw [← h s (Nat.le_refl _)]
  cases hs : member s with
  | failed stop => rfl
  | found first rest =>
      have hlt := (hm first rest hs).2
      simp only [Reading.andThen_found]
      rw [Reading.many_congr fun r hr => link_congr fun q hq => h q (by omega)]

/-- What a term reads depends on the reader of groups on shorter texts only. -/
theorem termWith_congr {inner inner' : List Char → Reading Term} {s : List Char}
    (h : ∀ r : List Char, r.length < s.length → inner r = inner' r) :
    termWith inner s = termWith inner' s := by
  have hg : groupWith inner (afterLayout s) = groupWith inner' (afterLayout s) := by
    have hle := length_afterLayout_le s
    cases hs : afterLayout s with
    | nil => rfl
    | cons c rest =>
        rw [hs, List.length_cons] at hle
        unfold groupWith
        split
        · next heq =>
            cases heq
            rw [h _ hle]
        · rfl
  unfold termWith termHereWith
  rw [hg]

/-- So does what an expression reads, and two readers that agree there make the
same expressions. -/
theorem expressionWith_congr {inner inner' : List Char → Reading Term} {s : List Char}
    (hi : ∀ r : List Char, r.length < s.length → Reading.AdvancesAt inner r)
    (h : ∀ r : List Char, r.length < s.length → inner r = inner' r) :
    expressionWith inner s = expressionWith inner' s := by
  have hterm : ∀ r : List Char, r.length ≤ s.length → Reading.AdvancesAt (termWith inner) r :=
    fun r hr => advancesAt_termWith fun q hq => hi q (by omega)
  refine chain_congr (advancesAt_chain hterm) fun r hr => ?_
  refine chain_congr (hterm r hr) fun q hq => ?_
  exact termWith_congr fun p hp => h p (by omega)

/-- **An expression takes at least one character** and leaves an end of its
text. -/
theorem advancesAt_expression (s : List Char) : Reading.AdvancesAt expression s := by
  induction hn : s.length using Nat.strongRecOn generalizing s with
  | ind n ih =>
      intro t rest h
      rw [expression] at h
      refine advancesAt_expressionWith (fun r hr u mid hu => ?_) t rest h
      have hu' : expression r = .found u mid := (if_pos hr).symm.trans hu
      exact ih r.length (hn ▸ hr) r rfl u mid hu'

/-- **A group contains an expression.** The condition on lengths in the
definition of `expression` always holds where it is asked. -/
theorem expression_eq (s : List Char) : expression s = expressionWith expression s := by
  rw [expression]
  refine expressionWith_congr (fun r hr => ?_) fun r hr => if_pos hr
  intro t rest h
  exact advancesAt_expression r t rest ((if_pos hr).symm.trans h)

end SecurityRules.Shorthand
