/-
  SecurityRules.Proofs.Shorthand.Completeness
  ────────────────────────────────
  **EVERY EXPRESSION IS READ AS IT IS MEANT.**

  A phrase that fits in front of a text is read there, up to its end and as the
  term that it means.  The induction is on the phrase.  A chain is read member
  by member, and what the chain of the remaining members says about its own
  first member is what the link in front of it needs, so the statement is about
  the list of members (`Phrase.readMembers`), not about the term they make up.

  Main statement: however an expression is laid out and spelled, it is read as
  the predicate that it means (`parse_of_spaced`).
-/
import SecurityRules.Shorthand.Parse
import SecurityRules.Proofs.Shorthand.Phrase

namespace SecurityRules.Shorthand

open SecurityRules.Text

/-! ## §1. Reading the members of a chain. -/

/-- Behind a connective reading is committed to a member. -/
theorem link_of_afterConnective {c : Connective} {member : List Char → Reading Term}
    {s after : List Char} (h : afterConnective c (afterLayout s) = some after) :
    link c member s = (member after).commit := by
  rw [link, h]

namespace Level

/-- Reads what makes up an expression of a level: the members of a chain, or
else the term itself. -/
def readMembers : Level → List Char → Reading (List Term)
  | term, s => (termWith expression s).map fun t => [t]
  | chain c, s =>
      ((memberOf c).reader s).andThen fun first rest =>
        (Reading.many (link c (memberOf c).reader) rest).map (first :: ·)

/-- The term that members make up. -/
def gather : Level → List Term → Term
  | term => Connective.gather .all
  | chain c => c.gather

/-- A level is read by reading its members and gathering them. -/
theorem reader_eq_map (l : Level) (s : List Char) :
    l.reader s = (l.readMembers s).map l.gather := by
  cases l with
  | term =>
      show termWith expression s = _
      rw [readMembers]
      cases termWith expression s <;> rfl
  | chain c =>
      rw [reader_chain, readMembers, Shorthand.chain]
      cases (memberOf c).reader s with
      | failed stop => rfl
      | found first rest =>
          show (Reading.many _ rest).map _ = ((Reading.many _ rest).map _).map _
          cases Reading.many (link c (memberOf c).reader) rest <;> rfl

/-- One more member is read in front of a chain when a connective follows it. -/
theorem readMembers_cons {c : Connective} {s rest behind : List Char} {member : Term}
    {more : List Term} {after : List Char}
    (hmember : (memberOf c).reader s = .found member rest)
    (hjoint : afterConnective c (afterLayout rest) = some after)
    (hmore : (chain c).readMembers after = .found more behind) :
    (chain c).readMembers s = .found (member :: more) behind := by
  -- the first member of the rest is what the link finds behind the connective
  obtain ⟨first, mid, hfirst, hmid⟩ := Reading.andThen_eq_found.1 hmore
  obtain ⟨tail, htail, rfl⟩ := Reading.map_eq_found.1 hmid
  have hlink : link c (memberOf c).reader rest = .found first mid := by
    rw [link_of_afterConnective hjoint]
    exact Reading.commit_eq_found.2 hfirst
  have hlt : mid.length < rest.length :=
    (advancesAt_link (fun r _ => (memberOf c).advancesAt_reader r) first mid hlink).2
  show ((memberOf c).reader s).andThen _ = _
  rw [hmember]
  show (Reading.many (link c (memberOf c).reader) rest).map _ = _
  rw [Reading.many_of_found hlink hlt, htail]
  rfl

/-- A chain ends with a member that no connective follows. -/
theorem readMembers_singleton {c : Connective} {s rest : List Char} {member : Term}
    (hmember : (memberOf c).reader s = .found member rest)
    (hend : afterConnective c (afterLayout rest) = none) :
    (chain c).readMembers s = .found [member] rest := by
  have hlink : link c (memberOf c).reader rest = .failed ⟨rest, false, []⟩ := by
    rw [link, hend]
    rfl
  show ((memberOf c).reader s).andThen _ = _
  rw [hmember]
  show (Reading.many (link c (memberOf c).reader) rest).map _ = _
  rw [Reading.many_of_miss hlink]
  rfl

end Level

/-! ## §2. Reading terms. -/

theorem not_opensGap_of_opensOperand {c : Char} (h : opensOperand c = true) :
    opensGap c = false ∧ c ≠ '(' := by
  refine ⟨?_, ?_⟩
  · cases hg : opensGap c with
    | false => rfl
    | true =>
        exfalso
        simp only [opensGap, isLayoutChar, Bool.or_eq_true, beq_iff_eq] at hg
        rcases hg with ((((rfl | rfl) | rfl) | rfl) | rfl) | rfl <;> exact absurd h (by decide)
  · intro heq
    subst heq
    exact absurd h (by decide)

/-- Layout in front of an operand is skipped, and nothing else. -/
theorem afterLayout_gap_operand (g : Gap) {o : Operand} (ho : o.WellSpelled)
    (rest : List Char) :
    afterLayout (Gap.text g ++ (o.shorthand.toList ++ rest)) = o.shorthand.toList ++ rest := by
  obtain ⟨c, s, hs, hc⟩ := exists_cons_of_wellSpelled ho
  rw [hs]
  exact afterLayout_gap_cons g (not_opensGap_of_opensOperand hc).1 _

/-- An operand is read back behind any gap, in front of any text before which it
ends. -/
theorem operand_of_endsBefore (g : Gap) {o : Operand} (ho : o.WellSpelled) {rest : List Char}
    (hends : o.EndsBefore rest) :
    operand (Gap.text g ++ (o.shorthand.toList ++ rest)) = .found o rest :=
  operand_eq_found_iff.2 ⟨afterLayout_gap_operand g ho rest, ho, hends⟩

/-- A term that starts with an operand is a clause. -/
theorem termWith_of_clause (g : Gap) {o : Operand} (ho : o.WellSpelled)
    {s rest : List Char} {c : Clause}
    (hclause : clause (o.shorthand.toList ++ s) = .found c rest) :
    termWith expression (Gap.text g ++ (o.shorthand.toList ++ s)) = .found (.leaf c) rest := by
  obtain ⟨d, t, ht, hd⟩ := exists_cons_of_wellSpelled ho
  have hgroup : groupWith expression (o.shorthand.toList ++ s)
      = .failed ⟨o.shorthand.toList ++ s, false, []⟩ := by
    rw [ht, List.cons_append, groupWith]
    · rfl
    · intro r hr
      injection hr with hhead
      exact (not_opensGap_of_opensOperand hd).2 hhead
  rw [termWith, afterLayout_gap_operand g ho, termHereWith, hgroup, Reading.orElse_open, hclause]
  rfl

/-- A literal without an operator behind it is read as a term. -/
theorem clause_literal {text : String} (h : IsLiteral text) {rest : List Char}
    (hends : (Operand.literal text).EndsBefore rest) (hop : operator? rest = none) :
    clause ((Operand.literal text).shorthand.toList ++ rest) = .found (.literal text) rest := by
  have hfirst := operand_of_endsBefore [] (o := .literal text) h hends
  rw [Gap.text_nil, List.nil_append] at hfirst
  rw [clause, hfirst, Reading.andThen_found, clauseFrom, hop]

/-- A condition is read back with its two operands, its operator and whatever
gaps stand between them. -/
theorem clause_condition {c : Condition} (hl : c.left.WellSpelled) (hr : c.right.WellSpelled)
    {before after : Gap} {rest : List Char}
    (hleft : c.left.EndsBefore (Gap.text before ++ (c.operator.spelling.toList
      ++ (Gap.text after ++ (c.right.shorthand.toList ++ rest)))))
    (hop : c.operator.EndsBefore (Gap.text after ++ (c.right.shorthand.toList ++ rest)))
    (hright : c.right.EndsBefore rest) :
    clause (c.left.shorthand.toList ++ (Gap.text before ++ (c.operator.spelling.toList
      ++ (Gap.text after ++ (c.right.shorthand.toList ++ rest)))))
      = .found (.condition c) rest := by
  have hfirst := operand_of_endsBefore [] hl hleft
  rw [Gap.text_nil, List.nil_append] at hfirst
  -- no operator starts as a gap does, so that the gap ends in front of it
  obtain ⟨d, t, ht, hd⟩ := c.operator.exists_cons
  have hskip : afterLayout (Gap.text before ++ (c.operator.spelling.toList
      ++ (Gap.text after ++ (c.right.shorthand.toList ++ rest))))
      = c.operator.spelling.toList ++ (Gap.text after ++ (c.right.shorthand.toList ++ rest)) := by
    rw [ht]
    exact afterLayout_gap_cons before hd _
  rw [clause, hfirst, Reading.andThen_found]
  unfold clauseFrom
  rw [operator?_eq_some_iff.2 ⟨hskip, hop⟩]
  show (operand (Gap.text after ++ (c.right.shorthand.toList ++ rest))).commit.map _ = _
  rw [operand_of_endsBefore after hr hright]
  rfl

/-- A group is read as the expression in it. -/
theorem termWith_group (g : Gap) {s mid rest : List Char} {t : Term}
    (hinner : expression s = .found t mid) (hclose : afterLayout mid = ')' :: rest) :
    termWith expression (Gap.text g ++ '(' :: s) = .found t rest := by
  have hskip := afterLayout_gap_cons g (c := '(') (by decide) s
  have hgroup : groupWith expression ('(' :: s) = .found t rest := by
    show (expression s).andThen closeGroup = _
    rw [hinner, Reading.andThen_found]
    unfold closeGroup
    rw [hclose]
    rfl
  rw [termWith, hskip, termHereWith, hgroup]
  rfl

/-! ## §3. Reading phrases. -/

/-- What a phrase says is what its members say, gathered. -/
theorem Phrase.term_eq {l : Level} (p : Phrase l) : p.term = l.gather p.members := by
  match l, p with
  | .term, .literal text h => rfl
  | .term, .condition c hl hr before after => rfl
  | .term, .group before inner after => rfl
  | .chain c, p => exact p.term_eq_gather

/-- **A phrase is read as its members** where it fits. -/
theorem Phrase.readMembers {l : Level} (p : Phrase l) {rest : List Char} (h : p.Fits rest)
    (g : Gap) : l.readMembers (Gap.text g ++ (p.text ++ rest)) = .found p.members rest := by
  induction p generalizing rest g with
  | literal text ht =>
      obtain ⟨hends, hop⟩ := h
      have hterm := termWith_of_clause g (o := .literal text) ht (clause_literal ht hends hop)
      show (termWith expression (Gap.text g ++ (text.toList ++ rest))).map _ = _
      rw [show text.toList = (Operand.literal text).shorthand.toList from rfl, hterm]
      rfl
  | condition c hl hr before after =>
      obtain ⟨hleft, hop, hright⟩ := h
      have hterm := termWith_of_clause g hl (clause_condition hl hr hleft hop hright)
      show (termWith expression _).map _ = _
      rw [Phrase.text]
      simp only [List.append_assoc]
      rw [hterm]
      rfl
  | group before inner after ih =>
      -- the inner expression is read up to the layout in front of the parenthesis
      have hinner := ih h before
      have hread : expression (Gap.text before ++ (inner.text ++ (Gap.text after ++ ')' :: rest)))
          = .found inner.term (Gap.text after ++ ')' :: rest) := by
        have := (Level.chain .any).reader_eq_map
          (Gap.text before ++ (inner.text ++ (Gap.text after ++ ')' :: rest)))
        rw [hinner] at this
        rw [inner.term_eq]
        exact this
      have hclose := afterLayout_gap_cons after (c := ')') (by decide) rest
      have hterm := termWith_group g hread hclose
      show (termWith expression _).map _ = _
      rw [Phrase.text]
      simp only [List.cons_append, List.append_assoc, List.nil_append]
      rw [hterm]
      rfl
  | @single c member ih =>
      obtain ⟨hm, hend⟩ := h
      refine Level.readMembers_singleton ?_ hend
      rw [Level.reader_eq_map]
      show (Level.readMembers _ (Gap.text g ++ (member.text ++ rest))).map _ = _
      rw [ih hm g, member.term_eq]
      rfl
  | @joined c member joint more ih ihm =>
      obtain ⟨hm, hjoint, hmore⟩ := h
      -- the member is read up to the joint, and behind it the chain goes on
      have hskip := joint.afterLayout_text (more.text ++ rest)
      have hmember : (Level.memberOf c).reader
          (Gap.text g ++ (member.text ++ (joint.text ++ (more.text ++ rest))))
          = .found member.term (joint.text ++ (more.text ++ rest)) := by
        rw [Level.reader_eq_map, ih hm g, member.term_eq]
        rfl
      rw [Phrase.text, List.append_assoc, List.append_assoc]
      exact Level.readMembers_cons hmember (hskip ▸ hjoint) (ihm hmore joint.after)

/-- A phrase is read as what it means where it fits. -/
theorem Phrase.read {l : Level} (p : Phrase l) {rest : List Char} (h : p.Fits rest) (g : Gap) :
    l.reader (Gap.text g ++ (p.text ++ rest)) = .found p.term rest := by
  rw [Level.reader_eq_map, p.readMembers h g, p.term_eq]
  rfl

/-- **Whole texts are read.** A phrase with layout around it is read as the
predicate that it means. -/
theorem parseChars_of_fits (lead : Gap) (p : Phrase (.chain .any)) {rest : List Char}
    (h : p.Fits rest) (hrest : afterLayout rest = []) :
    Predicate.parseChars (Gap.text lead ++ (p.text ++ rest)) = .ok p.term.toJunction :=
  Predicate.parseChars_eq_ok.2 ⟨p.term, rest, p.read h lead, hrest, rfl⟩

/-- A phrase without missing layout is read, whatever layout is around it. -/
theorem parseChars_of_spaced (lead trail : Gap) {e : Phrase (.chain .any)} (he : e.Spaced) :
    Predicate.parseChars (Gap.text lead ++ (e.text ++ Gap.text trail)) = .ok e.term.toJunction := by
  have hskip := afterLayout_gap_eq_nil trail
  have hword : endsWord (Gap.text trail) = true := by
    cases trail with
    | nil => rfl
    | cons f trail =>
        have h := endsWord_gap (List.cons_ne_nil f trail) []
        rw [List.append_nil] at h
        exact h
  have hfits : e.Fits (Gap.text trail) :=
    e.fits_of_spaced he (fun _ => hword) (Level.stopsAt_of_afterLayout_eq_nil hskip)
  exact parseChars_of_fits lead e hfits hskip

end SecurityRules.Shorthand

namespace SecurityRules

open Shorthand

/-! ## §4. Reading texts. -/

/-- **Every expression is read as it is meant**, with any layout between its
tokens and around it and with any spelling of its connectives: a chain of one is
its only member, a longer chain is one junction of its members in order, and a
group stays one member of the chain it stands in. -/
theorem Predicate.parse_of_spaced (lead trail : Gap) (e : Phrase (.chain .any))
    (he : e.Spaced) :
    Predicate.parse (String.ofList (Gap.text lead ++ (e.text ++ Gap.text trail)))
      = .ok e.term.toJunction := by
  rw [Predicate.parse, String.toList_ofList]
  exact parseChars_of_spaced lead trail he

/-- A conjunction in parentheses, without layout next to them, as the first of
two alternatives. -/
def Shorthand.Phrase.ownerOrPublic : Phrase (.chain .any) :=
  .joined
    (.joined
      (.group []
        (.single (.joined (.literal "signedIn" (by decide +kernel))
          ⟨[.comment [' ', 'w', 'h', 'o'] (by simp) true], .lower, Gap.space⟩
          (.single (.condition ⟨.lookup (.named "team") "lead", .equal, .field .this⟩
            (by decide +kernel) (by decide +kernel) Gap.space Gap.space)))) [])
      ⟨[], .symbol, []⟩
      (.single (.group Gap.space
        (.joined (.single (.literal "\"a b\"" (by decide +kernel)))
          ⟨Gap.space, .upper, [.white '\t' (by decide)]⟩
          (.single (.single (.literal "!(x in y)" (by decide +kernel))))) [])))
    ⟨[], .symbol, Gap.space⟩
    (.single (.single (.literal "public" (by decide +kernel))))

/-- Groups with a comment inside, and connectives as symbols and as words in
either case, are read as the term that they abbreviate. -/
theorem Predicate.parse_ownerOrPublic :
    Phrase.ownerOrPublic.Spaced
      ∧ Predicate.parse (String.ofList (Gap.text [.comment [] (fun _ hc => nomatch hc) false]
          ++ (Phrase.ownerOrPublic.text ++ Gap.text Gap.space)))
        = .ok ⟨.any,
            [.node .all
              [.node .all [.leaf (.literal "signedIn"),
                .leaf (.condition ⟨.lookup (.named "team") "lead", .equal, .field .this⟩)],
               .node .any [.leaf (.literal "\"a b\""), .leaf (.literal "!(x in y)")]],
             .leaf (.literal "public")]⟩ := by
  have hspaced : Phrase.ownerOrPublic.Spaced := by
    simp [Phrase.ownerOrPublic, Phrase.Spaced, Phrase.opensGroup, Phrase.closesGroup, Gap.space]
  exact ⟨hspaced, Predicate.parse_of_spaced _ _ _ hspaced⟩

end SecurityRules
