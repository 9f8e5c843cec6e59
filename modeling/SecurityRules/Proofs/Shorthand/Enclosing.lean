/-
  SecurityRules.Proofs.Shorthand.Enclosing
  ────────────────────────────────
  **TEXTS BETWEEN ROUND PARENTHESES.**

  The arguments of a call end at the parenthesis that balances the first one.
  A text can be put between the two if scanning it changes neither the depth
  nor the quotes (`Passes`).  Every literal passes, a list under one condition:

    * a quoted text is skipped as a whole (`passesBetween_of_quoted`);
    * what is closed at one depth is closed at every depth
      (`closeBracket_deeper`), so a bare word passes with its calls
      (`passes_of_bareWord`);
    * a list is scanned for square brackets when it is read, and for round ones
      here.  Its round parentheses have to be nested by themselves
      (`passes_of_bracketList`).
-/
import SecurityRules.Proofs.Shorthand.Operand

namespace SecurityRules.Shorthand

open SecurityRules.Text

/-! ## §1. Texts that pass. -/

/-- Whether scanning a text for brackets of one kind leaves everything as it
is. -/
def PassesBetween (opening closing : Char) (t : List Char) : Prop :=
  ∀ (depth : Nat) (rest : List Char),
    closeBracket opening closing depth none (t ++ rest)
      = closeBracket opening closing depth none rest

/-- Whether scanning a text for round parentheses leaves everything as it is. -/
abbrev Passes (t : List Char) : Prop :=
  PassesBetween '(' ')' t

section Brackets

variable {opening closing : Char}

/-- Two texts that leave the scan as it is leave it so one behind the other. -/
theorem PassesBetween.append {s t : List Char} (hs : PassesBetween opening closing s)
    (ht : PassesBetween opening closing t) : PassesBetween opening closing (s ++ t) := by
  intro depth rest
  rw [List.append_assoc, hs, ht]

/-- Whether a character means nothing to a scan for brackets of one kind. -/
def meansNothing (opening closing c : Char) : Bool :=
  !isQuote c && !isSigil c && c != opening && c != closing

/-- A text of characters that mean nothing leaves the scan as it is. -/
theorem passesBetween_of_meansNothing {t : List Char}
    (h : t.all (meansNothing opening closing) = true) : PassesBetween opening closing t := by
  intro depth rest
  induction t with
  | nil => rfl
  | cons c t ih =>
      obtain ⟨hc, ht⟩ := Bool.and_eq_true_iff.1 h
      simp only [meansNothing, Bool.and_eq_true, Bool.not_eq_true', bne_iff_ne] at hc
      obtain ⟨⟨⟨hq, hs⟩, hopen⟩, hclose⟩ := hc
      rw [List.cons_append, closeBracket_outside depth (by simp [hq]) (by simp [hs]),
        if_neg hopen, if_neg hclose]
      exact ih ht

end Brackets

/-- Whether a character means nothing to the scan for round parentheses. -/
abbrev isPlain (c : Char) : Bool :=
  meansNothing '(' ')' c

theorem passes_of_plain {t : List Char} (h : t.all isPlain = true) : Passes t :=
  passesBetween_of_meansNothing h

theorem isPlain_of_isWordChar {c : Char} (h : isWordChar c = true) : isPlain c = true := by
  cases hp : isPlain c with
  | true => rfl
  | false =>
      exfalso
      simp only [meansNothing, isQuote, isSigil, Bool.and_eq_false_iff, Bool.not_eq_false',
        Bool.or_eq_true, beq_iff_eq, bne_eq_false_iff_eq] at hp
      rcases hp with (((rfl | rfl) | (rfl | rfl)) | rfl) | rfl <;> exact absurd h (by decide)

/-- A text that passes can be the argument of a call. -/
theorem callArguments_of_passes {t : List Char} (h : Passes t) :
    callArguments ('(' :: (t ++ [')'])) = .found () [] := by
  show closeBracket '(' ')' 0 none (t ++ [')']) = _
  rw [h]
  rfl

/-! ## §2. Quoted texts. -/

/-- Behind an opening quote the scan is the one that looks for the closing
quote. -/
theorem closeBracket_afterQuote {opening closing quote : Char} (hq : quote ≠ '\\')
    {s rest : List Char} (h : afterQuote quote s = some rest) (depth : Nat) :
    closeBracket opening closing depth (some quote) s
      = closeBracket opening closing depth none rest := by
  fun_induction afterQuote quote s with
  | case1 => simp at h
  | case2 c s ih =>
      rw [closeBracket_escape]
      exact ih h
  | case3 s =>
      cases h
      rw [closeBracket_inQuote depth quote hq, if_pos rfl]
  | case4 c s hs hne ih =>
      have hc : c ≠ '\\' := ne_backslash_of_row (ne_nil_of_afterQuote h) hs
      rw [closeBracket_inQuote depth quote hc, if_neg hne]
      exact ih h

/-- A quoted text is skipped, whatever brackets are in it. -/
theorem passesBetween_of_quoted {opening closing : Char} {t : List Char}
    (h : quoted t = .found () []) : PassesBetween opening closing t := by
  intro depth rest
  obtain ⟨c, s, rfl, hc⟩ := exists_cons_of_quoted h
  have hne := ne_backslash_of_isQuote hc
  rw [quoted, if_pos hc] at h
  split at h
  · next behind hs =>
      cases h
      rw [List.cons_append, closeBracket_quote depth hc]
      exact closeBracket_afterQuote hne (afterQuote_append hne rest hs) depth
  · simp [Reading.refuse] at h

/-! ## §3. Bare words. -/

/-- What is closed at one depth is closed at every depth. -/
theorem closeBracket_deeper {opening closing : Char} {depth : Nat} {quote : Option Char}
    {s rest : List Char} {u : Unit}
    (h : closeBracket opening closing depth quote s = .found u rest) (more : Nat) :
    closeBracket opening closing (depth + more + 1) quote s
      = closeBracket opening closing more none rest := by
  -- each row raises or lowers both depths, until the balancing bracket is met
  fun_induction closeBracket opening closing depth quote s with
  | case1 => simp [Reading.refuse] at h
  | case2 depth quote c s ih =>
      rw [closeBracket_escape]
      exact ih h
  | case3 depth quote c s hs ih =>
      have hc : c ≠ '\\' := ne_backslash_of_row (ne_nil_of_closeBracket h) hs
      rw [closeBracket_inQuote _ quote hc]
      exact ih h
  | case4 depth c s hq ih =>
      rw [closeBracket_quote _ hq]
      exact ih h
  | case5 => simp [Reading.refuse] at h
  | case6 depth s hq hs ih =>
      rw [closeBracket_outside _ hq hs, if_pos rfl, ← ih h]
      congr 1
      omega
  | case7 s hq hs hne =>
      cases h
      rw [closeBracket_outside _ hq hs, if_neg hne, if_pos rfl, Nat.zero_add]
  | case8 s depth hq hs hne ih =>
      have hdepth : depth + 1 + more + 1 = (depth + more + 1) + 1 := by omega
      rw [hdepth, closeBracket_outside _ hq hs, if_neg hne, if_pos rfl]
      exact ih h
  | case9 depth c s hq hs hne hne' ih =>
      rw [closeBracket_outside _ hq hs, if_neg hne, if_neg hne']
      exact ih h

/-- What is read as the arguments of a call passes, with its parentheses. -/
theorem passes_of_callArguments {args : List Char} (h : callArguments args = .found () []) :
    Passes args := by
  intro depth rest
  obtain ⟨args', rfl⟩ := exists_cons_of_bracketed h
  have hclose : closeBracket '(' ')' 0 none (args' ++ rest) = .found () rest :=
    closeBracket_append (by decide) rest h
  have hdeep := closeBracket_deeper hclose depth
  rw [Nat.zero_add] at hdeep
  rw [List.cons_append, closeBracket_outside depth (by decide) (by simp [isSigil]), if_pos rfl]
  exact hdeep

/-- A word passes, since its calls do. -/
theorem passes_of_wordBody {t : List Char} (h : WordBody t) : Passes t := by
  induction h with
  | nil => exact passes_of_plain rfl
  | @char c s hc _ ih =>
      have hplain : Passes [c] := passes_of_plain (by simp [isPlain_of_isWordChar hc])
      exact hplain.append ih
  | call ha _ ih => exact (passes_of_callArguments ha).append ih

theorem passes_of_bareWord {t : List Char} (h : IsBareWord t) : Passes t := by
  obtain ⟨hsign, hbody, -, -, -⟩ := h
  refine PassesBetween.append (passes_of_plain ?_) (passes_of_wordBody hbody)
  simp only [signs, List.mem_cons, List.not_mem_nil, or_false] at hsign
  rcases hsign with rfl | rfl | rfl | rfl <;> decide

/-! ## §4. Lists. -/

/-- Whether the round parentheses outside quotes are nested, where `depth` of
them are open and `quote` is the quote that is open. -/
def roundsNested : (depth : Nat) → (quote : Option Char) → List Char → Bool
  | depth, _, [] => depth == 0
  | depth, some quote, '\\' :: _ :: rest => roundsNested depth (some quote) rest
  | depth, some quote, c :: rest =>
      roundsNested depth (if c = quote then none else some quote) rest
  | depth, none, c :: rest =>
      if isQuote c then roundsNested depth (some c) rest
      else if c = '(' then roundsNested (depth + 1) none rest
      else if c = ')' then
        match depth with
        | 0 => false
        | depth + 1 => roundsNested depth none rest
      else roundsNested depth none rest

theorem roundsNested_escape (depth : Nat) (quote c : Char) (s : List Char) :
    roundsNested depth (some quote) ('\\' :: c :: s) = roundsNested depth (some quote) s := by
  rw [roundsNested]

/-- Between quotes only the closing quote counts. -/
theorem roundsNested_inQuote (depth : Nat) (quote : Char) {c : Char} (hc : c ≠ '\\')
    (s : List Char) :
    roundsNested depth (some quote) (c :: s)
      = roundsNested depth (if c = quote then none else some quote) s := by
  rw [roundsNested]
  intro d rest he
  exact absurd he hc

theorem roundsNested_quote (depth : Nat) {c : Char} (hc : isQuote c = true) (s : List Char) :
    roundsNested depth none (c :: s) = roundsNested depth (some c) s := by
  cases depth <;> rw [roundsNested, if_pos hc]

theorem roundsNested_outside (depth : Nat) {c : Char} (hq : ¬isQuote c = true) (s : List Char) :
    roundsNested depth none (c :: s)
      = if c = '(' then roundsNested (depth + 1) none s
        else if c = ')' then
          match depth with
          | 0 => false
          | depth + 1 => roundsNested depth none s
        else roundsNested depth none s := by
  cases depth <;> rw [roundsNested, if_neg hq]

/-- The round parentheses of a list that closes are closed with it. -/
theorem closeBracket_rounds {depth : Nat} {quote : Option Char} {s : List Char} {u : Unit}
    (h : closeBracket '[' ']' depth quote s = .found u []) {rounds : Nat}
    (hr : roundsNested rounds quote s = true) (more : Nat) (rest : List Char) :
    closeBracket '(' ')' (more + rounds) quote (s ++ rest)
      = closeBracket '(' ')' more none rest := by
  -- both scans take the same steps; only their depths differ
  fun_induction closeBracket '[' ']' depth quote s generalizing rounds with
  | case1 => simp [Reading.refuse] at h
  | case2 depth quote c s ih =>
      rw [roundsNested_escape] at hr
      rw [List.cons_append, List.cons_append, closeBracket_escape]
      exact ih h hr
  | case3 depth quote c s hs ih =>
      have hc : c ≠ '\\' := ne_backslash_of_row (ne_nil_of_closeBracket h) hs
      rw [roundsNested_inQuote _ _ hc] at hr
      rw [List.cons_append, closeBracket_inQuote _ quote hc]
      exact ih h hr
  | case4 depth c s hq ih =>
      rw [roundsNested_quote _ hq] at hr
      rw [List.cons_append, closeBracket_quote _ hq]
      exact ih h hr
  | case5 => simp [Reading.refuse] at h
  | case6 depth s hq hs ih =>
      rw [roundsNested_outside _ hq, if_neg (by decide), if_neg (by decide)] at hr
      rw [List.cons_append, closeBracket_outside _ hq (by simp [isSigil]), if_neg (by decide),
        if_neg (by decide)]
      exact ih h hr
  | case7 s hq hs hne =>
      cases h
      -- the list ends here, and no round parenthesis of it is open
      rw [roundsNested_outside _ hq, if_neg (by decide), if_neg (by decide), roundsNested] at hr
      rw [List.cons_append, closeBracket_outside _ hq (by simp [isSigil]), if_neg (by decide),
        if_neg (by decide), beq_iff_eq.1 hr]
      rfl
  | case8 s depth hq hs hne ih =>
      rw [roundsNested_outside _ hq, if_neg (by decide), if_neg (by decide)] at hr
      rw [List.cons_append, closeBracket_outside _ hq (by simp [isSigil]), if_neg (by decide),
        if_neg (by decide)]
      exact ih h hr
  | case9 depth c s hq hs hne hne' ih =>
      have hs' : ¬(isSigil c && startsName (s ++ rest)) = true := by
        rwa [startsName_append (ne_nil_of_closeBracket h)]
      -- no square bracket, so the round ones are looked at
      rw [roundsNested_outside _ hq] at hr
      rw [List.cons_append, closeBracket_outside _ hq hs']
      by_cases hopen : c = '('
      · rw [if_pos hopen] at hr ⊢
        exact ih h hr
      rw [if_neg hopen] at hr ⊢
      by_cases hclose : c = ')'
      · rw [if_pos hclose] at hr ⊢
        cases rounds with
        | zero => exact absurd hr Bool.false_ne_true
        | succ rounds => exact ih h hr
      · rw [if_neg hclose] at hr ⊢
        exact ih h hr

/-- **A list passes if its round parentheses are nested by themselves.** The
scan for square brackets alone does not look at them. -/
theorem passes_of_bracketList {t : List Char} (h : bracketList t = .found () [])
    (hr : roundsNested 0 none t = true) : Passes t := by
  intro depth rest
  obtain ⟨s, rfl⟩ := exists_cons_of_bracketed h
  have hclose : closeBracket '[' ']' 0 none s = .found () [] := h
  rw [roundsNested_outside 0 (by decide), if_neg (by decide), if_neg (by decide)] at hr
  rw [List.cons_append, closeBracket_outside depth (by decide) (by simp [isSigil]),
    if_neg (by decide), if_neg (by decide)]
  exact closeBracket_rounds hclose hr depth rest

end SecurityRules.Shorthand
