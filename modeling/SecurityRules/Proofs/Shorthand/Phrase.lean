/-
  SecurityRules.Proofs.Shorthand.Phrase
  ────────────────────────────────
  **PHRASES: EXPRESSIONS AS THEY ARE WRITTEN.**

  A phrase is an expression with all that its text shows: how each connective
  is spelled, where layout stands, and which groups have parentheses.  It
  stands on one of three levels, alternatives of conjunctions of terms.

    * `Phrase.text` is the text, `Phrase.term` what it means;
    * `Phrase.Fits` says when the readers take each token of a phrase for
      itself, given the text behind the phrase;
    * `Phrase.Spaced` says that no layout is missing, except next to the
      parenthesis of a group.

  Main statement: a phrase without missing layout fits in front of everything
  that does not run on from it (`Phrase.fits_of_spaced`).
-/
import SecurityRules.Proofs.Shorthand.Operand
import SecurityRules.Proofs.Shorthand.Joint

namespace SecurityRules.Shorthand

open SecurityRules.Text

/-! ## §1. Levels and phrases. -/

/-- How loosely a phrase is put together: a single term, or a chain. -/
inductive Level where
  | term
  | chain (c : Connective)

namespace Level

/-- The level of the members of a chain: alternatives are conjunctions, and
conjuncts are terms. -/
def memberOf : Connective → Level
  | .any => chain .all
  | .all => term

/-- The reader of a level. -/
def reader : Level → List Char → Reading Term
  | term => termWith expression
  | chain .all => Shorthand.chain .all (termWith expression)
  | chain .any => expression

/-- A chain is read as its members with connectives between them, on both levels
alike. -/
theorem reader_chain (c : Connective) :
    reader (chain c) = Shorthand.chain c (reader (memberOf c)) := by
  cases c with
  | all => rfl
  | any => exact funext expression_eq

/-- Every level takes something of the text. -/
theorem advancesAt_reader (l : Level) (s : List Char) : Reading.AdvancesAt l.reader s := by
  have hterm : ∀ r : List Char, Reading.AdvancesAt (termWith expression) r :=
    fun r => advancesAt_termWith fun q _ => advancesAt_expression q
  match l with
  | term => exact hterm s
  | chain .all => exact advancesAt_chain fun r _ => hterm r
  | chain .any => exact advancesAt_expression s

end Level

/-- An expression as it is written. -/
inductive Phrase : Level → Type where
  | literal (text : String) (h : IsLiteral text) : Phrase .term
  | condition (c : Condition) (hleft : c.left.WellSpelled) (hright : c.right.WellSpelled)
      (before after : Gap) : Phrase .term
  | group (before : Gap) (inner : Phrase (.chain .any)) (after : Gap) : Phrase .term
  /-- A chain of one. -/
  | single {c : Connective} (member : Phrase (Level.memberOf c)) : Phrase (.chain c)
  | joined {c : Connective} (member : Phrase (Level.memberOf c)) (joint : Joint c)
      (more : Phrase (.chain c)) : Phrase (.chain c)

namespace Phrase

/-- The text of a phrase. -/
def text : {l : Level} → Phrase l → List Char
  | _, literal text _ => text.toList
  | _, condition c _ _ before after =>
      c.left.shorthand.toList ++ (Gap.text before ++ (c.operator.spelling.toList
        ++ (Gap.text after ++ c.right.shorthand.toList)))
  | _, group before inner after =>
      '(' :: (Gap.text before ++ (inner.text ++ (Gap.text after ++ [')'])))
  | _, single member => member.text
  | _, joined member joint more => member.text ++ (joint.text ++ more.text)

mutual

/-- What a phrase means. A chain of one is its only member, a longer one is one
junction of its members in order, and a group is what it contains. -/
def term : {l : Level} → Phrase l → Term
  | _, literal text _ => .leaf (.literal text)
  | _, condition c _ _ _ _ => .leaf (.condition c)
  | _, group _ inner _ => inner.term
  | _, single member => member.term
  | .chain c, joined member _ more => .node c (member.term :: more.members)

/-- What the members of a chain mean, in order. -/
def members : {l : Level} → Phrase l → List Term
  | _, literal text _ => [.leaf (.literal text)]
  | _, condition c _ _ _ _ => [.leaf (.condition c)]
  | _, group _ inner _ => [inner.term]
  | _, single member => [member.term]
  | _, joined member _ more => member.term :: more.members

end

/-- There is no empty chain. -/
theorem members_ne_nil {l : Level} (p : Phrase l) : p.members ≠ [] := by
  cases p <;> simp [members]

/-- The members of a chain make up its meaning. -/
theorem term_eq_gather {c : Connective} (p : Phrase (.chain c)) :
    p.term = c.gather p.members := by
  cases p with
  | single member => rfl
  | joined member joint more =>
      obtain ⟨t, ts, h⟩ := List.exists_cons_of_ne_nil more.members_ne_nil
      rw [term, members, h]
      rfl

/-! ## §2. Phrases that are read as themselves. -/

/-- Whether a phrase is read as itself in front of `rest`: each token ends where
the phrase says, and nothing in `rest` carries a term or a chain on. -/
def Fits : {l : Level} → Phrase l → List Char → Prop
  | _, literal text _, rest => (Operand.literal text).EndsBefore rest ∧ operator? rest = none
  | _, condition c _ _ before after, rest =>
      c.left.EndsBefore (Gap.text before ++ (c.operator.spelling.toList
          ++ (Gap.text after ++ (c.right.shorthand.toList ++ rest))))
        ∧ c.operator.EndsBefore (Gap.text after ++ (c.right.shorthand.toList ++ rest))
        ∧ c.right.EndsBefore rest
  | _, group _ inner after, rest => inner.Fits (Gap.text after ++ ')' :: rest)
  | .chain c, single member, rest =>
      member.Fits rest ∧ afterConnective c (afterLayout rest) = none
  | _, joined member joint more, rest =>
      member.Fits (joint.text ++ (more.text ++ rest)) ∧ joint.EndsBefore (more.text ++ rest)
        ∧ more.Fits rest

/-! ## §3. Phrases without missing layout. -/

/-- Whether a phrase starts with a group. -/
def opensGroup : {l : Level} → Phrase l → Bool
  | _, literal _ _ => false
  | _, condition _ _ _ _ _ => false
  | _, group _ _ _ => true
  | _, single member => member.opensGroup
  | _, joined member _ _ => member.opensGroup

/-- Whether a phrase ends with a group. -/
def closesGroup : {l : Level} → Phrase l → Bool
  | _, literal _ _ => false
  | _, condition _ _ _ _ _ => false
  | _, group _ _ _ => true
  | _, single member => member.closesGroup
  | _, joined _ _ more => more.closesGroup

/-- Whether layout stands on both sides of every operator and of every
connective. It may be missing next to the parenthesis of a group. -/
def Spaced : {l : Level} → Phrase l → Prop
  | _, literal _ _ => True
  | _, condition _ _ _ before after => before ≠ [] ∧ after ≠ []
  | _, group _ inner _ => inner.Spaced
  | _, single member => member.Spaced
  | _, joined member joint more =>
      (joint.before ≠ [] ∨ member.closesGroup = true)
        ∧ (joint.after ≠ [] ∨ more.opensGroup = true) ∧ member.Spaced ∧ more.Spaced

end Phrase

end SecurityRules.Shorthand

namespace SecurityRules

open Shorthand SecurityRules.Text

/-- The shorthand puts one space on either side of the operator. -/
theorem Condition.toList_shorthand (c : Condition) :
    c.shorthand.toList = c.left.shorthand.toList ++ (Gap.text Gap.space
      ++ (c.operator.spelling.toList ++ (Gap.text Gap.space ++ c.right.shorthand.toList))) := by
  have hspace : " ".toList = Gap.text Gap.space := rfl
  rw [Condition.shorthand]
  simp only [String.toList_append, List.append_assoc, hspace]

end SecurityRules

namespace SecurityRules.Shorthand

open SecurityRules.Text

/-! ## §4. Layout keeps tokens apart. -/

/-- What starts layout continues no token. -/
theorem not_of_opensGap {c : Char} (h : opensGap c = true) :
    isWordChar c = false ∧ c ≠ '(' ∧ '=' ≠ c ∧ '-' ≠ c := by
  simp only [opensGap, isLayoutChar, Bool.or_eq_true, beq_iff_eq] at h
  rcases h with ((((rfl | rfl) | rfl) | rfl) | rfl) | rfl <;> decide

/-- Layout ends a word. -/
theorem endsWord_gap {g : Gap} (hg : g ≠ []) (rest : List Char) :
    endsWord (Gap.text g ++ rest) = true := by
  obtain ⟨c, s, hs, hc⟩ := Gap.exists_cons hg
  obtain ⟨hw, hp, -⟩ := not_of_opensGap hc
  rw [hs]
  simp [endsWord, hw, hp]

/-- A word ends where the parenthesis of its group follows. -/
theorem endsWord_closing (g : Gap) (rest : List Char) :
    endsWord (Gap.text g ++ ')' :: rest) = true := by
  by_cases hg : g = []
  · subst hg
    rfl
  · exact endsWord_gap hg _

/-- Where a word ends no character of a word follows. -/
theorem head?_of_endsWord {rest : List Char} (h : endsWord rest = true) :
    rest.head?.any isWordChar = false := by
  cases rest with
  | nil => rfl
  | cons c rest =>
      have hc : isWordChar c = false ∧ c ≠ '(' := by simpa [endsWord] using h
      exact hc.1

end SecurityRules.Shorthand

namespace SecurityRules

open Shorthand SecurityRules.Text

/-- An operand ends where a word would. -/
theorem Operand.endsBefore_of_endsWord (o : Operand) {rest : List Char}
    (h : endsWord rest = true) : o.EndsBefore rest := by
  cases o with
  | literal text => exact fun _ => h
  | lookup via p => exact head?_of_endsWord h
  | field r =>
      have hw := head?_of_endsWord h
      cases rest with
      | nil => rfl
      | cons c rest =>
          show isNameChar c = false
          cases hn : isNameChar c with
          | false => rfl
          | true =>
              have hc := isWordChar_of_isNameChar hn
              exact absurd (hc.symm.trans hw) (by decide)

/-- An operator ends in front of layout. -/
theorem Operator.endsBefore_gap (op : Operator) {g : Gap} (hg : g ≠ []) (rest : List Char) :
    op.EndsBefore (Gap.text g ++ rest) := by
  obtain ⟨c, s, hs, hc⟩ := Gap.exists_cons hg
  obtain ⟨hw, -, he, hm⟩ := not_of_opensGap hc
  rw [hs]
  exact Operator.endsBefore_of_head hw he hm

end SecurityRules

namespace SecurityRules.Shorthand

open SecurityRules.Text

/-! ## §5. What ends a phrase. -/

/-- Whether nothing in `rest` carries a phrase of a level on. -/
def Level.StopsAt : Level → List Char → Prop
  | .term, rest => operator? rest = none
  | .chain .all, rest => operator? rest = none ∧ afterConnective .all (afterLayout rest) = none
  | .chain .any, rest =>
      (operator? rest = none ∧ afterConnective .all (afterLayout rest) = none)
        ∧ afterConnective .any (afterLayout rest) = none

/-- A chain stops where its member does and no connective of its own follows. -/
theorem Level.stopsAt_chain {c : Connective} {rest : List Char} :
    Level.StopsAt (.chain c) rest ↔
      (Level.memberOf c).StopsAt rest ∧ afterConnective c (afterLayout rest) = none := by
  cases c <;> exact Iff.rfl

/-- The members of a chain stop in front of its connective: one that binds
looser does not continue them. -/
theorem Level.stopsAt_joint {c : Connective} (joint : Joint c) (rest : List Char) :
    (Level.memberOf c).StopsAt (joint.text ++ rest) := by
  have hskip := joint.afterLayout_text rest
  have hop : operator? (joint.text ++ rest) = none := by
    rw [operator?, hskip]
    exact operatorHere?_spelling joint.spelling _
  cases c with
  | all => exact hop
  | any =>
      refine ⟨hop, ?_⟩
      rw [hskip]
      exact afterConnective_all_spelling_any joint.spelling _

/-- Everything stops in front of the parenthesis that closes a group. -/
theorem Level.stopsAt_closing (g : Gap) (rest : List Char) :
    Level.StopsAt (.chain .any) (Gap.text g ++ ')' :: rest) := by
  have hskip := afterLayout_gap_cons g (c := ')') (by decide) rest
  refine ⟨⟨?_, ?_⟩, ?_⟩
  · rw [operator?, hskip]
    exact operatorHere?_eq_none fun op => by cases op <;> rfl
  · rw [hskip]
    rfl
  · rw [hskip]
    rfl

/-- Everything stops at the end of the text. -/
theorem Level.stopsAt_of_afterLayout_eq_nil {rest : List Char} (h : afterLayout rest = []) :
    Level.StopsAt (.chain .any) rest := by
  refine ⟨⟨?_, ?_⟩, ?_⟩
  · rw [operator?, h]
    rfl
  · rw [h]
    rfl
  · rw [h]
    rfl

/-! ## §6. Phrases without missing layout fit. -/

/-- A phrase that opens a group starts with its parenthesis. -/
theorem Phrase.exists_cons_of_opensGroup {l : Level} (p : Phrase l) (h : p.opensGroup = true) :
    ∃ s, p.text = '(' :: s := by
  induction p with
  | literal text hl => cases h
  | condition c hl hr before after => cases h
  | group before inner after _ => exact ⟨_, rfl⟩
  | single member ih => exact ih h
  | joined member joint more ih _ =>
      obtain ⟨s, hs⟩ := ih h
      exact ⟨s ++ (joint.text ++ more.text), by rw [Phrase.text, hs, List.cons_append]⟩

/-- A connective ends in front of layout and in front of a parenthesis. -/
theorem Joint.endsBefore {c : Connective} (joint : Joint c) (more : Phrase (.chain c))
    (h : joint.after ≠ [] ∨ more.opensGroup = true) (rest : List Char) :
    joint.EndsBefore (more.text ++ rest) := by
  refine afterConnective_of_head joint.spelling ?_
  by_cases hg : joint.after = []
  · obtain ⟨s, hs⟩ := more.exists_cons_of_opensGroup (h.resolve_left (absurd hg))
    rw [hg, hs]
    rfl
  · obtain ⟨d, s, hs, hd⟩ := Gap.exists_cons hg
    rw [hs]
    exact (not_of_opensGap hd).1

/-- **A phrase without missing layout fits** in front of everything that does
not carry it on. -/
theorem Phrase.fits_of_spaced {l : Level} (p : Phrase l) (hp : p.Spaced) {rest : List Char}
    (hword : p.closesGroup = false → endsWord rest = true) (hstop : l.StopsAt rest) :
    p.Fits rest := by
  -- what stands behind a part changes on the way down: a joint behind a member, the
  -- parenthesis behind an inner expression
  induction p generalizing rest with
  | literal text h =>
      exact ⟨Operand.endsBefore_of_endsWord _ (hword rfl), hstop⟩
  | condition c hl hr before after =>
      obtain ⟨hb, ha⟩ := hp
      exact ⟨Operand.endsBefore_of_endsWord _ (endsWord_gap hb _),
        Operator.endsBefore_gap _ ha _, Operand.endsBefore_of_endsWord _ (hword rfl)⟩
  | group before inner after ih =>
      exact ih hp (fun _ => endsWord_closing after rest) (Level.stopsAt_closing after rest)
  | single member ih =>
      obtain ⟨hs, hc⟩ := Level.stopsAt_chain.1 hstop
      exact ⟨ih hp hword hs, hc⟩
  | @joined c member joint more ih ihm =>
      obtain ⟨hb, ha, hm, hmore⟩ := hp
      refine ⟨ih hm ?_ (Level.stopsAt_joint joint _), joint.endsBefore more ha rest,
        ihm hmore hword hstop⟩
      -- a member that does not end with a parenthesis has layout behind it
      intro hopen
      have hgap : joint.before ≠ [] := hb.resolve_right (by simp [hopen])
      rw [Joint.text, List.append_assoc]
      exact endsWord_gap hgap _

end SecurityRules.Shorthand
