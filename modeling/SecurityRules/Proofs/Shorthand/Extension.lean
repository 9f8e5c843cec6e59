/-
  SecurityRules.Proofs.Shorthand.Extension
  ────────────────────────────────
  **TEXT ON THE NEXT LINES.**

  Every token of the shorthand ends with its line, except for quoted texts and
  brackets, which end with a character of their own.  So a phrase is read as
  before when more text follows on the next lines, whatever this text is, unless
  it carries the expression on.

    * `operatorHere?_extend`, `afterConnective_extend` — what is read in letters
      and symbols does not look beyond its line;
    * `Phrase.fits_extend` — a phrase still fits;
    * `exists_gap_of_afterLayout_eq_nil` — the line feed ends a last comment, and
      makes a gap of the layout behind a phrase.

  Main statement: `Predicate.exists_phrase_of_parse`.
-/
import SecurityRules.Proofs.Shorthand.Soundness

namespace SecurityRules.Shorthand

open SecurityRules.Text

/-! ## §1. Tokens end with their line. -/

theorem head?_any_extend {p : Char → Bool} (hp : p '\n' = false) (rest more : List Char) :
    (rest ++ '\n' :: more).head?.any p = rest.head?.any p := by
  cases rest with
  | nil => exact hp
  | cons c rest => rfl

/-- A front without a line break is found, or not, in the first line alone. -/
theorem isPrefixOf?_extend {front : List Char} (hf : '\n' ∉ front) (s more : List Char) :
    front.isPrefixOf? (s ++ '\n' :: more)
      = (front.isPrefixOf? s).map (· ++ '\n' :: more) := by
  induction front generalizing s with
  | nil => rfl
  | cons c front ih =>
      obtain ⟨hc, hfront⟩ : '\n' ≠ c ∧ '\n' ∉ front := by
        simpa using hf
      cases s with
      | nil =>
          have hne : ¬(c == '\n') = true := fun heq => hc (beq_iff_eq.1 heq).symm
          rw [List.nil_append, isPrefixOf?_cons, if_neg hne, isPrefixOf?_cons_nil]
          rfl
      | cons d s =>
          rw [List.cons_append, isPrefixOf?_cons, isPrefixOf?_cons]
          split
          · exact ih hfront s
          · rfl

theorem afterSymbol_extend {symbol : String} (h : '\n' ∉ symbol.toList) (s more : List Char) :
    afterSymbol symbol (s ++ '\n' :: more) = (afterSymbol symbol s).map (· ++ '\n' :: more) :=
  isPrefixOf?_extend h s more

theorem afterKeyword_extend {word : String} (h : '\n' ∉ word.toList) (s more : List Char) :
    afterKeyword word (s ++ '\n' :: more) = (afterKeyword word s).map (· ++ '\n' :: more) := by
  rw [afterKeyword, afterKeyword, afterSymbol_extend h]
  cases afterSymbol word s with
  | none => rfl
  | some rest =>
      show Option.filter _ (some (rest ++ '\n' :: more)) = (Option.filter _ (some rest)).map _
      rw [Option.filter_some, Option.filter_some, head?_any_extend (by decide)]
      split <;> rfl

/-- Where each attempt finds the same up to `g`, so does the first that finds
something. -/
theorem findSome?_eq_map {α β γ : Type} {f : α → Option β} {f' : α → Option γ} {g : β → γ}
    {as : List α} (h : ∀ a ∈ as, f' a = (f a).map g) :
    as.findSome? f' = (as.findSome? f).map g := by
  induction as with
  | nil => rfl
  | cons a as ih =>
      rw [List.findSome?_cons, List.findSome?_cons, h a List.mem_cons_self]
      cases f a with
      | none => exact ih fun b hb => h b (List.mem_cons_of_mem _ hb)
      | some b => rfl

theorem afterOperator_extend (op : Operator) (s more : List Char) :
    afterOperator op (s ++ '\n' :: more) = (afterOperator op s).map (· ++ '\n' :: more) := by
  have hspelling : '\n' ∉ op.spelling.toList := by
    cases op <;> decide
  unfold afterOperator
  split
  · exact afterKeyword_extend hspelling s more
  · exact afterSymbol_extend hspelling s more

/-- The operator that is found does not depend on the lines below. -/
theorem operatorHere?_extend (s more : List Char) :
    operatorHere? (s ++ '\n' :: more)
      = (operatorHere? s).map fun found => (found.1, found.2 ++ '\n' :: more) := by
  refine findSome?_eq_map fun op _ => ?_
  rw [afterOperator_extend]
  cases afterOperator op s <;> rfl

/-- A connective is found, or not, in the first line alone. -/
theorem afterConnective_extend (c : Connective) (s more : List Char) :
    afterConnective c (s ++ '\n' :: more)
      = (afterConnective c s).map (· ++ '\n' :: more) := by
  have hwords : (connectiveWords c).findSome? (fun word => afterKeyword word (s ++ '\n' :: more))
      = ((connectiveWords c).findSome? fun word => afterKeyword word s).map
        (· ++ '\n' :: more) := by
    have hword : ∀ word ∈ connectiveWords c, '\n' ∉ word.toList := by
      cases c <;> decide
    exact findSome?_eq_map fun word hmem => afterKeyword_extend (hword word hmem) s more
  rw [afterConnective, afterConnective, hwords]
  cases (connectiveWords c).findSome? fun word => afterKeyword word s with
  | some rest => rfl
  | none => exact afterSymbol_extend (by cases c <;> decide) s more

end SecurityRules.Shorthand

namespace SecurityRules

open Shorthand SecurityRules.Text

variable {rest : List Char}

/-- An operand that ends before a text ends before it with more lines as well.
-/
theorem Operand.EndsBefore.extend {o : Operand} (h : o.EndsBefore rest) (more : List Char) :
    o.EndsBefore (rest ++ '\n' :: more) := by
  cases o with
  | literal text =>
      intro hword
      have hends : endsWord rest = true := h hword
      rw [endsWord, head?_any_extend (by decide)]
      exact hends
  | field r => exact (head?_any_extend (by decide) rest more).trans h
  | lookup via path => exact (head?_any_extend (by decide) rest more).trans h

theorem Operator.EndsBefore.extend {op : Operator} (h : op.EndsBefore rest) (more : List Char) :
    op.EndsBefore (rest ++ '\n' :: more) := by
  have hread := operatorHere?_extend (op.spelling.toList ++ rest) more
  rw [h, List.append_assoc] at hread
  exact hread

/-- A joint that ends before a text ends before it with more lines as well. -/
theorem Shorthand.Joint.EndsBefore.extend {c : Connective} {joint : Joint c}
    (h : joint.EndsBefore rest) (more : List Char) : joint.EndsBefore (rest ++ '\n' :: more) := by
  have hread := afterConnective_extend c
    ((joint.spelling.text c).toList ++ (Gap.text joint.after ++ rest)) more
  rw [h] at hread
  simp only [List.append_assoc, Option.map_some] at hread
  exact hread

end SecurityRules

namespace SecurityRules.Shorthand

open SecurityRules.Text

/-! ## §2. Phrases still fit. -/

/-- **A phrase still fits when more text follows on the next lines**, provided
that this text does not carry it on. -/
theorem Phrase.fits_extend {l : Level} (p : Phrase l) {rest : List Char} (h : p.Fits rest)
    (more : List Char) (hstop : l.StopsAt (rest ++ '\n' :: more)) :
    p.Fits (rest ++ '\n' :: more) := by
  -- within the phrase a joint or a parenthesis stops each part as it did before
  induction p generalizing rest with
  | literal text ht => exact ⟨h.1.extend more, hstop⟩
  | condition c hl hr before after =>
      obtain ⟨hleft, hop, hright⟩ := h
      have hleft' := hleft.extend more
      have hop' := hop.extend more
      simp only [List.append_assoc] at hleft' hop'
      exact ⟨hleft', hop', hright.extend more⟩
  | group before inner after ih =>
      have hinner := @ih (Gap.text after ++ ')' :: rest) h
      rw [List.append_assoc, List.cons_append] at hinner
      exact hinner (Level.stopsAt_closing after _)
  | single member ih =>
      obtain ⟨hs, hc⟩ := Level.stopsAt_chain.1 hstop
      exact ⟨ih h.1 hs, hc⟩
  | @joined c member joint more' ih ihm =>
      obtain ⟨hm, hj, hmore⟩ := h
      have hm' := ih hm
      have hj' := hj.extend more
      simp only [List.append_assoc] at hm' hj'
      exact ⟨hm' (Level.stopsAt_joint joint _), hj', ihm hmore hstop⟩

/-! ## §3. The layout behind an expression. -/

/-- Layout up to the end of a text is a gap as soon as a line feed follows: the
last comment has its line end then. -/
theorem exists_gap_of_afterLayout_eq_nil {s : List Char} (hs : afterLayout s = []) :
    ∃ g : Gap, s ++ ['\n'] = Gap.text g := by
  obtain ⟨g, tail, htext, htail⟩ := exists_gap_and_tail s
  rw [hs, List.append_nil] at htext
  rcases htail with rfl | ⟨-, line, hline, rfl⟩
  · refine ⟨g ++ [.white '\n' rfl], ?_⟩
    rw [htext, Gap.text_append, List.append_nil]
    rfl
  · refine ⟨g ++ [.comment line hline false], ?_⟩
    rw [htext, Gap.text_append, List.append_assoc]
    simp [Filler.text, Filler.lineEnd]

/-- Such layout is skipped with its line feed, up to where a token starts. -/
theorem afterLayout_append_line {layout : List Char} (h : afterLayout layout = []) {c : Char}
    (hc : opensGap c = false) (s : List Char) :
    afterLayout (layout ++ '\n' :: c :: s) = c :: s := by
  obtain ⟨g, hg⟩ := exists_gap_of_afterLayout_eq_nil h
  have hline : layout ++ '\n' :: c :: s = Gap.text g ++ c :: s := by
    rw [← hg, List.append_assoc]
    rfl
  rw [hline]
  exact afterLayout_gap_cons g hc s

end SecurityRules.Shorthand

namespace SecurityRules

open Shorthand

/-- **What is read is a phrase on lines of its own.** With a line feed behind
it, a text that is read as a predicate is a phrase with gaps around it, which
means this predicate and fits in front of all that does not carry it on. -/
theorem Predicate.exists_phrase_of_parse {text : String} {p : Predicate}
    (h : Predicate.parse text = .ok p) :
    ∃ (lead : Gap) (e : Phrase (.chain .any)) (trail : Gap),
      text.toList ++ ['\n'] = Gap.text lead ++ (e.text ++ Gap.text trail)
        ∧ e.term.toJunction = p
        ∧ ∀ more, Level.StopsAt (.chain .any) (Gap.text trail ++ more) →
            e.Fits (Gap.text trail ++ more) := by
  obtain ⟨lead, e, layout, htext, hfits, hend, hp⟩ := Predicate.parse_eq_ok_iff.1 h
  obtain ⟨trail, htrail⟩ := exists_gap_of_afterLayout_eq_nil hend
  refine ⟨lead, e, trail, ?_, hp, fun more hstop => ?_⟩
  · rw [htext, ← htrail]
    simp only [List.append_assoc]
  · have hline : Gap.text trail ++ more = layout ++ '\n' :: more := by
      rw [← htrail, List.append_assoc]
      rfl
    rw [hline] at hstop ⊢
    exact e.fits_extend hfits more hstop

end SecurityRules
