/-
  SecurityRules.Proofs.Shorthand.Soundness
  ────────────────────────────────
  **WHATEVER IS READ IS AN EXPRESSION.**

  The other direction: what a reader finds is the meaning of a phrase, and
  the phrase is spelled out in front of what the reader leaves.

    * `sound_term`, `sound_chain` — one step for each level, over what is
      known of shorter texts;
    * `reader_eq_found_iff` — a level reads exactly its phrases;
    * `parse_eq_ok_iff` — a text is read exactly when it is a phrase with
      layout around it, as the predicate that the phrase means.
-/
import SecurityRules.Proofs.Shorthand.Completeness

namespace SecurityRules.Shorthand

open SecurityRules.Text

namespace Level

/-- Whether the front of `s`, up to `rest`, spells a phrase that means `t`. -/
def Spells (l : Level) (s : List Char) (t : Term) (rest : List Char) : Prop :=
  ∃ (g : Gap) (p : Phrase l), s = Gap.text g ++ (p.text ++ rest) ∧ p.term = t ∧ p.Fits rest

/-- Whether all that a level reads at the front of `s` is spelled out there. -/
def SoundAt (l : Level) (s : List Char) : Prop :=
  ∀ t rest, l.reader s = .found t rest → l.Spells s t rest

end Level

/-! ## §1. Clauses. -/

/-- What was skipped in front of a character is a gap. -/
theorem exists_gap_of_eq_cons {s rest : List Char} {c : Char}
    (h : afterLayout s = c :: rest) : ∃ g : Gap, s = Gap.text g ++ c :: rest := by
  have hne : afterLayout s ≠ [] := by
    rw [h]
    exact List.cons_ne_nil _ _
  obtain ⟨g, hg⟩ := exists_gap hne
  rw [h] at hg
  exact ⟨g, hg⟩

/-- An operand is read behind a gap. -/
theorem exists_gap_of_operand {s rest : List Char} {o : Operand} (h : operand s = .found o rest) :
    ∃ g : Gap, s = Gap.text g ++ (o.shorthand.toList ++ rest) := by
  obtain ⟨hs, ho, -⟩ := operand_eq_found_iff.1 h
  obtain ⟨c, t, ht, -⟩ := exists_cons_of_wellSpelled ho
  rw [ht, List.cons_append] at hs ⊢
  exact exists_gap_of_eq_cons hs

theorem exists_gap_of_operator {s rest : List Char} {op : Operator}
    (h : operator? s = some (op, rest)) :
    ∃ g : Gap, s = Gap.text g ++ (op.spelling.toList ++ rest) := by
  obtain ⟨hs, -⟩ := operator?_eq_some_iff.1 h
  obtain ⟨c, t, ht, -⟩ := op.exists_cons
  rw [ht, List.cons_append] at hs ⊢
  exact exists_gap_of_eq_cons hs

/-- What is read as a clause is a phrase of one term. -/
theorem spells_of_clause {s rest : List Char} {c : Clause} (h : clause s = .found c rest) :
    Level.term.Spells s (.leaf c) rest := by
  obtain ⟨left, mid, hleft, hfrom⟩ := Reading.andThen_eq_found.1 h
  obtain ⟨g, hs⟩ := exists_gap_of_operand hleft
  obtain ⟨-, hspelled, hends⟩ := operand_eq_found_iff.1 hleft
  unfold clauseFrom at hfrom
  split at hfrom
  · next op behind hop =>
      obtain ⟨right, hright, rfl⟩ := Reading.map_eq_found.1 hfrom
      rw [Reading.commit_eq_found] at hright
      obtain ⟨before, hmid⟩ := exists_gap_of_operator hop
      obtain ⟨after, hbehind⟩ := exists_gap_of_operand hright
      obtain ⟨-, hopends⟩ := operator?_eq_some_iff.1 hop
      obtain ⟨-, hspelled', hends'⟩ := operand_eq_found_iff.1 hright
      subst hbehind
      subst hmid
      refine ⟨g, .condition ⟨left, op, right⟩ hspelled hspelled' before after, ?_, rfl,
        hends, hopends, hends'⟩
      rw [hs, Phrase.text]
      simp only [List.append_assoc]
  · next hop =>
      -- without an operator behind it only a literal is a clause
      cases left with
      | literal text =>
          cases hfrom
          exact ⟨g, .literal text hspelled, hs, rfl, hends, hop⟩
      | field r => simp [Reading.refuse] at hfrom
      | lookup via p => simp [Reading.refuse] at hfrom

/-! ## §2. Terms. -/

/-- What is read as a group is a phrase in parentheses. -/
theorem spells_of_group {s s' rest : List Char} {t : Term} (hs : afterLayout s = '(' :: s')
    (hsound : (Level.chain .any).SoundAt s')
    (h : (expression s').andThen closeGroup = .found t rest) : Level.term.Spells s t rest := by
  obtain ⟨u, mid, hinner, hclose⟩ := Reading.andThen_eq_found.1 h
  obtain ⟨before, inner, hs', hmeans, hfits⟩ := hsound u mid hinner
  unfold closeGroup at hclose
  split at hclose
  · next behind hbehind =>
      cases hclose
      -- the gaps in front of the two parentheses belong to the group
      obtain ⟨g, hg⟩ := exists_gap_of_eq_cons hs
      obtain ⟨after, rfl⟩ := exists_gap_of_eq_cons hbehind
      refine ⟨g, .group before inner after, ?_, hmeans, hfits⟩
      rw [hg, hs', Phrase.text]
      simp only [List.cons_append, List.append_assoc, List.nil_append]
  · simp [Reading.refuse] at hclose

/-- A term is read soundly if expressions are in every shorter text. -/
theorem sound_term {s : List Char}
    (h : ∀ r : List Char, r.length < s.length → (Level.chain .any).SoundAt r) :
    Level.term.SoundAt s := by
  intro t rest ht
  have hle := length_afterLayout_le s
  -- either a group was read, in a shorter text, or a clause
  rcases Reading.orElse_eq_found.1 (Reading.noting_eq_found.1 ht) with hgroup | ⟨-, -, -, hclause⟩
  · unfold groupWith at hgroup
    split at hgroup
    · next s' hs =>
        rw [hs, List.length_cons] at hle
        exact spells_of_group hs (h s' (by omega)) hgroup
    · simp [Reading.miss] at hgroup
  · obtain ⟨c, hc, rfl⟩ := Reading.map_eq_found.1 hclause
    obtain ⟨g, p, hs, hmeans, hfits⟩ := spells_of_clause hc
    -- the layout in front was skipped before the clause was read
    have hne : afterLayout s ≠ [] := by
      intro hnil
      rw [hnil] at hc
      obtain ⟨-, hlt⟩ := advancesAt_clause [] c rest hc
      exact absurd hlt (by simp)
    obtain ⟨g', hg'⟩ := exists_gap hne
    refine ⟨g' ++ g, p, ?_, hmeans, hfits⟩
    rw [Gap.text_append, List.append_assoc, ← hs]
    exact hg'

/-! ## §3. Chains. -/

/-- A connective that is read behind layout is spelled there. -/
theorem exists_joint {c : Connective} {s after : List Char}
    (h : afterConnective c (afterLayout s) = some after) :
    ∃ (before : Gap) (spelling : Spelling),
      s = Gap.text before ++ ((spelling.text c).toList ++ after)
        ∧ afterConnective c ((spelling.text c).toList ++ after) = some after := by
  obtain ⟨text, hmem, hs⟩ := eq_append_of_afterConnective h
  obtain ⟨spelling, rfl⟩ := exists_spelling hmem
  obtain ⟨d, t, ht, -⟩ := spelling.exists_cons c
  have hcons : afterLayout s = d :: (t ++ after) := by
    rw [hs, ht]
    rfl
  obtain ⟨before, hbefore⟩ := exists_gap_of_eq_cons hcons
  refine ⟨before, spelling, ?_, hs ▸ h⟩
  rw [ht]
  exact hbefore

/-- What is read behind a member makes it the first member of a chain. -/
theorem exists_chain {c : Connective} {s rest : List Char} {tail : List Term}
    (hsound : ∀ r : List Char, r.length < s.length → (Level.memberOf c).SoundAt r)
    (h : Reading.many (link c (Level.memberOf c).reader) s = .found tail rest)
    (first : Phrase (Level.memberOf c)) (hfirst : first.Fits s) :
    ∃ p : Phrase (.chain c), p.text ++ rest = first.text ++ s
      ∧ p.members = first.term :: tail ∧ p.Fits rest := by
  -- along the repetition; the member read last is the first of what follows
  fun_induction Reading.many (link c (Level.memberOf c).reader) s generalizing tail rest first with
  | case1 s t mid hlink hlt ih =>
      obtain ⟨tail', htail, rfl⟩ := Reading.map_eq_found.1 h
      unfold link at hlink
      split at hlink
      · next after hafter =>
          obtain ⟨before, spelling, hs, hspelled⟩ := exists_joint hafter
          have hshorter : after.length < s.length :=
            Nat.lt_of_lt_of_le (afterConnective_suffix hafter).2 (length_afterLayout_le s)
          obtain ⟨gap, member, hmember, rfl, hfits⟩ :=
            hsound after hshorter t mid (Reading.commit_eq_found.1 hlink)
          obtain ⟨more, hmore, hmembers, hmoreFits⟩ :=
            ih (fun r hr => hsound r (by omega)) htail member hfits
          -- joint, member and rest of the chain make up `s`
          have hafter' : after = Gap.text gap ++ (more.text ++ rest) := by
            rw [hmore]
            exact hmember
          have hjoint :
              (Joint.mk before spelling gap : Joint c).text ++ (more.text ++ rest) = s := by
            rw [hs, hafter', Joint.text]
            simp only [List.append_assoc]
          refine ⟨.joined first ⟨before, spelling, gap⟩ more, ?_, ?_, ?_, ?_, hmoreFits⟩
          · rw [Phrase.text, List.append_assoc, List.append_assoc, hjoint]
          · rw [Phrase.members, hmembers]
          · rw [hjoint]
            exact hfirst
          · show afterConnective c ((spelling.text c).toList ++ _) = some _
            rw [← hafter']
            exact hspelled
      · simp [Reading.miss] at hlink
  | case2 s t mid hlink hlt =>
      have hadvance :=
        advancesAt_link (fun r _ => (Level.memberOf c).advancesAt_reader r) t mid hlink
      exact absurd hadvance.2 hlt
  | case3 s stop hlink hc => simp at h
  | case4 s stop hlink hc =>
      cases h
      refine ⟨.single first, rfl, rfl, hfirst, ?_⟩
      -- behind a connective reading is committed to a member
      unfold link at hlink
      split at hlink
      · next after hafter =>
          cases hm : (Level.memberOf c).reader after with
          | found t r =>
              rw [hm] at hlink
              cases hlink
          | failed stop' =>
              rw [hm] at hlink
              cases hlink
              exact absurd rfl hc
      · assumption

/-- A chain is read soundly if its members are. -/
theorem sound_chain {c : Connective} {s : List Char}
    (hsound : ∀ r : List Char, r.length ≤ s.length → (Level.memberOf c).SoundAt r) :
    (Level.chain c).SoundAt s := by
  intro t rest h
  rw [Level.reader_chain] at h
  obtain ⟨u, mid, hfirst, hmore⟩ := Reading.andThen_eq_found.1 h
  obtain ⟨tail, htail, rfl⟩ := Reading.map_eq_found.1 hmore
  obtain ⟨g, first, hs, rfl, hfits⟩ := hsound s (Nat.le_refl _) u mid hfirst
  -- the first member takes something, so the others are read in a shorter text
  have hlt : mid.length < s.length :=
    ((Level.memberOf c).advancesAt_reader s first.term mid hfirst).2
  obtain ⟨p, hp, hmembers, hpfits⟩ :=
    exists_chain (fun r hr => hsound r (by omega)) htail first hfits
  refine ⟨g, p, ?_, ?_, hpfits⟩
  · rw [hp]
    exact hs
  · rw [p.term_eq_gather, hmembers]

/-! ## §4. Expressions. -/

/-- Expressions are read soundly everywhere, by induction on the length of the
text. -/
theorem sound_expression (s : List Char) : (Level.chain .any).SoundAt s := by
  -- a group contains a shorter text, and a chain is as long as its first member may be
  induction hn : s.length using Nat.strongRecOn generalizing s with
  | ind n ih =>
      subst hn
      have hterm : ∀ r : List Char, r.length ≤ s.length → Level.term.SoundAt r := by
        intro r hr
        exact sound_term fun q hq => ih q.length (by omega) q rfl
      have hall : ∀ r : List Char, r.length ≤ s.length → (Level.chain .all).SoundAt r := by
        intro r hr
        exact sound_chain fun q hq => hterm q (by omega)
      exact sound_chain hall

/-- So is every level. -/
theorem Level.soundAt (l : Level) (s : List Char) : l.SoundAt s := by
  match l with
  | .term => exact sound_term fun r _ => sound_expression r
  | .chain .all => exact sound_chain fun r _ => sound_term fun q _ => sound_expression q
  | .chain .any => exact sound_expression s

/-- **A level reads exactly its phrases.** -/
theorem Level.reader_eq_found_iff {l : Level} {s rest : List Char} {t : Term} :
    l.reader s = .found t rest ↔ l.Spells s t rest := by
  constructor
  · exact l.soundAt s t rest
  · intro h
    obtain ⟨g, p, rfl, rfl, hfits⟩ := h
    exact p.read hfits g

end SecurityRules.Shorthand

namespace SecurityRules

open Shorthand

/-- **A text is read exactly when it is a phrase with layout around it**, as the
predicate that the phrase means. -/
theorem Predicate.parse_eq_ok_iff {text : String} {p : Predicate} :
    Predicate.parse text = .ok p ↔
      ∃ (lead : Gap) (e : Phrase (.chain .any)) (trail : List Char),
        text.toList = Gap.text lead ++ (e.text ++ trail) ∧ e.Fits trail
          ∧ afterLayout trail = [] ∧ e.term.toJunction = p := by
  rw [Predicate.parse, Predicate.parseChars_eq_ok]
  constructor
  · intro h
    obtain ⟨t, trail, hread, hend, hp⟩ := h
    obtain ⟨lead, e, hs, rfl, hfits⟩ :=
      (Level.reader_eq_found_iff (l := .chain .any)).1 hread
    exact ⟨lead, e, trail, hs, hfits, hend, hp⟩
  · intro h
    obtain ⟨lead, e, trail, hs, hfits, hend, hp⟩ := h
    have hread := (Level.reader_eq_found_iff (l := .chain .any)).2 ⟨lead, e, hs, rfl, hfits⟩
    exact ⟨e.term, trail, hread, hend, hp⟩

end SecurityRules
