/-
  SecurityRules.Proofs.Shorthand.RawText
  ────────────────────────────────
  **WHERE RAW TEXTS END.**

  Where a quoted or a bracketed text ends is decided by the text itself, and
  what stands behind it has no say.  Each reader comes in two directions:

    * *append* — what is read stays the same when more text is put behind;
    * *cut* — what is read is read again when the text behind is taken away.

  A text that `verbatim` gives is thus one that its reader takes up entirely.
-/
import SecurityRules.Shorthand.RawText

namespace SecurityRules.Shorthand

open SecurityRules.Text

/-! ## §1. Quoted text. -/

theorem afterQuote_escape (quote c : Char) (s : List Char) :
    afterQuote quote ('\\' :: c :: s) = afterQuote quote s := by
  rw [afterQuote]

/-- Without a backslash in front a character is the quote or is passed over. -/
theorem afterQuote_plain {quote c : Char} (hc : c ≠ '\\') (s : List Char) :
    afterQuote quote (c :: s) = if c = quote then some s else afterQuote quote s := by
  rw [afterQuote]
  intro d rest he
  exact absurd he hc

/-- What the rows for an escaped character leave over is no backslash, unless
the text runs out behind it. -/
theorem ne_backslash_of_row {c : Char} {s : List Char} (hne : s ≠ [])
    (hrow : ∀ (d : Char) (rest : List Char), c = '\\' → s = d :: rest → False) : c ≠ '\\' := by
  intro heq
  subst heq
  obtain ⟨d, rest, rfl⟩ := List.exists_cons_of_ne_nil hne
  exact hrow d rest rfl rfl

/-- A quote that is found is not at the end of the text. -/
theorem ne_nil_of_afterQuote {quote : Char} {s rest : List Char}
    (h : afterQuote quote s = some rest) : s ≠ [] := by
  intro heq
  subst heq
  simp [afterQuote] at h

theorem ne_backslash_of_isQuote {c : Char} (h : isQuote c = true) : c ≠ '\\' := by
  intro heq
  subst heq
  exact absurd h (by decide)

/-- A closing quote that is found is found whatever follows. -/
theorem afterQuote_append {quote : Char} (hq : quote ≠ '\\') {s rest : List Char}
    (more : List Char) (h : afterQuote quote s = some rest) :
    afterQuote quote (s ++ more) = some (rest ++ more) := by
  -- along the scan: an escape takes two characters, anything else one
  fun_induction afterQuote quote s with
  | case1 => simp at h
  | case2 c s ih =>
      show afterQuote quote ('\\' :: c :: (s ++ more)) = _
      rw [afterQuote_escape]
      exact ih h
  | case3 s =>
      cases h
      show afterQuote quote (quote :: (rest ++ more)) = _
      rw [afterQuote_plain hq, if_pos rfl]
  | case4 c s hs hne ih =>
      have hc : c ≠ '\\' := ne_backslash_of_row (ne_nil_of_afterQuote h) hs
      show afterQuote quote (c :: (s ++ more)) = _
      rw [afterQuote_plain hc, if_neg hne]
      exact ih h

/-- What is read up to a closing quote is read by itself. -/
theorem afterQuote_cut {quote : Char} (hq : quote ≠ '\\') {s rest : List Char}
    (h : afterQuote quote s = some rest) :
    ∃ front, s = front ++ rest ∧ afterQuote quote front = some [] := by
  fun_induction afterQuote quote s with
  | case1 => simp at h
  | case2 c s ih =>
      obtain ⟨front, rfl, hf⟩ := ih h
      refine ⟨'\\' :: c :: front, rfl, ?_⟩
      rw [afterQuote_escape]
      exact hf
  | case3 s =>
      cases h
      refine ⟨[quote], rfl, ?_⟩
      rw [afterQuote_plain hq, if_pos rfl]
  | case4 c s hs hne ih =>
      have hc : c ≠ '\\' := ne_backslash_of_row (ne_nil_of_afterQuote h) hs
      obtain ⟨front, rfl, hf⟩ := ih h
      refine ⟨c :: front, rfl, ?_⟩
      rw [afterQuote_plain hc, if_neg hne]
      exact hf

/-- A quoted text is read whatever follows it. -/
theorem quoted_append {s rest : List Char} {u : Unit} (more : List Char)
    (h : quoted s = .found u rest) : quoted (s ++ more) = .found u (rest ++ more) := by
  cases s with
  | nil => simp [quoted, Reading.miss] at h
  | cons c s =>
      simp only [quoted, List.cons_append] at h ⊢
      split at h
      · next hq =>
          rw [if_pos hq]
          split at h
          · next behind hb =>
              cases h
              rw [afterQuote_append (ne_backslash_of_isQuote hq) more hb]
          · simp [Reading.refuse] at h
      · simp [Reading.miss] at h

/-- What is read as a quoted text is one by itself. -/
theorem quoted_cut {s rest : List Char} {u : Unit} (h : quoted s = .found u rest) :
    ∃ front, s = front ++ rest ∧ quoted front = .found u [] := by
  cases s with
  | nil => simp [quoted, Reading.miss] at h
  | cons c s =>
      simp only [quoted] at h
      split at h
      · next hq =>
          split at h
          · next behind hb =>
              cases h
              obtain ⟨front, rfl, hf⟩ := afterQuote_cut (ne_backslash_of_isQuote hq) hb
              refine ⟨c :: front, rfl, ?_⟩
              rw [quoted, if_pos hq, hf]
          · simp [Reading.refuse] at h
      · simp [Reading.miss] at h

theorem exists_cons_of_quoted {s rest : List Char} {u : Unit} (h : quoted s = .found u rest) :
    ∃ c s', s = c :: s' ∧ isQuote c = true := by
  cases s with
  | nil => simp [quoted, Reading.miss] at h
  | cons c s =>
      simp only [quoted] at h
      split at h
      · next hc => exact ⟨c, s, rfl, hc⟩
      · simp [Reading.miss] at h

/-! ## §2. Bracketed text. -/

section Brackets

variable {opening closing : Char}

theorem closeBracket_escape (depth : Nat) (quote c : Char) (s : List Char) :
    closeBracket opening closing depth (some quote) ('\\' :: c :: s)
      = closeBracket opening closing depth (some quote) s := by
  rw [closeBracket]

/-- Between quotes no bracket counts. -/
theorem closeBracket_inQuote (depth : Nat) (quote : Char) {c : Char} (hc : c ≠ '\\')
    (s : List Char) :
    closeBracket opening closing depth (some quote) (c :: s)
      = closeBracket opening closing depth (if c = quote then none else some quote) s := by
  rw [closeBracket]
  intro d rest he
  exact absurd he hc

/-- A quote opens, at whatever depth. -/
theorem closeBracket_quote (depth : Nat) {c : Char} (hc : isQuote c = true) (s : List Char) :
    closeBracket opening closing depth none (c :: s)
      = closeBracket opening closing depth (some c) s := by
  cases depth <;> rw [closeBracket, if_pos hc]

/-- A character outside quotes that neither opens a quoted text nor a reference
counts only if it is a bracket. -/
theorem closeBracket_outside (depth : Nat) {c : Char} {s : List Char}
    (hq : ¬isQuote c = true) (hs : ¬(isSigil c && startsName s) = true) :
    closeBracket opening closing depth none (c :: s)
      = if c = opening then closeBracket opening closing (depth + 1) none s
        else if c = closing then
          match depth with
          | 0 => .found () s
          | depth + 1 => closeBracket opening closing depth none s
        else closeBracket opening closing depth none s := by
  cases depth <;> rw [closeBracket, if_neg hq, if_neg hs]

/-- Text that does not run out has something left to read. -/
theorem ne_nil_of_closeBracket {depth : Nat} {quote : Option Char} {s rest : List Char}
    {u : Unit} (h : closeBracket opening closing depth quote s = .found u rest) : s ≠ [] := by
  intro heq
  subst heq
  simp [closeBracket, Reading.refuse] at h

/-- Whether a name starts is seen at the first character. -/
theorem startsName_append {s : List Char} (hs : s ≠ []) (more : List Char) :
    startsName (s ++ more) = startsName s := by
  cases s with
  | nil => exact absurd rfl hs
  | cons c s => rfl

/-- **A closing bracket that is found is found whatever follows.** A sigil looks
at the character behind it, which is there before the bracket. -/
theorem closeBracket_append (hcl : isSigil closing = false) {depth : Nat} {quote : Option Char}
    {s rest : List Char} {u : Unit} (more : List Char)
    (h : closeBracket opening closing depth quote s = .found u rest) :
    closeBracket opening closing depth quote (s ++ more) = .found u (rest ++ more) := by
  -- only the row for a sigil looks ahead, and there the text has not run out
  fun_induction closeBracket opening closing depth quote s with
  | case1 => simp [Reading.refuse] at h
  | case2 depth quote c s ih =>
      show closeBracket opening closing depth (some quote) ('\\' :: c :: (s ++ more)) = _
      rw [closeBracket_escape]
      exact ih h
  | case3 depth quote c s hs ih =>
      have hc : c ≠ '\\' := ne_backslash_of_row (ne_nil_of_closeBracket h) hs
      show closeBracket opening closing depth (some quote) (c :: (s ++ more)) = _
      rw [closeBracket_inQuote depth quote hc]
      exact ih h
  | case4 depth c s hq ih =>
      show closeBracket opening closing depth none (c :: (s ++ more)) = _
      rw [closeBracket_quote depth hq]
      exact ih h
  | case5 => simp [Reading.refuse] at h
  | case6 depth s hq hs ih =>
      have hs' : ¬(isSigil opening && startsName (s ++ more)) = true := by
        rwa [startsName_append (ne_nil_of_closeBracket h)]
      show closeBracket opening closing depth none (opening :: (s ++ more)) = _
      rw [closeBracket_outside depth hq hs', if_pos rfl]
      exact ih h
  | case7 s hq hs hne =>
      cases h
      have hs' : ¬(isSigil closing && startsName (rest ++ more)) = true := by simp [hcl]
      show closeBracket opening closing 0 none (closing :: (rest ++ more)) = _
      rw [closeBracket_outside 0 hq hs', if_neg hne, if_pos rfl]
  | case8 s depth hq hs hne ih =>
      have hs' : ¬(isSigil closing && startsName (s ++ more)) = true := by simp [hcl]
      show closeBracket opening closing (depth + 1) none (closing :: (s ++ more)) = _
      rw [closeBracket_outside (depth + 1) hq hs', if_neg hne, if_pos rfl]
      exact ih h
  | case9 depth c s hq hs hne hne' ih =>
      have hs' : ¬(isSigil c && startsName (s ++ more)) = true := by
        rwa [startsName_append (ne_nil_of_closeBracket h)]
      show closeBracket opening closing depth none (c :: (s ++ more)) = _
      rw [closeBracket_outside depth hq hs', if_neg hne, if_neg hne']
      exact ih h

/-- **What is read up to a closing bracket is read by itself.** -/
theorem closeBracket_cut {depth : Nat} {quote : Option Char} {s rest : List Char} {u : Unit}
    (h : closeBracket opening closing depth quote s = .found u rest) :
    ∃ front, s = front ++ rest ∧ closeBracket opening closing depth quote front = .found u [] := by
  -- the same rows are taken; a sigil sees the same character behind it
  fun_induction closeBracket opening closing depth quote s with
  | case1 => simp [Reading.refuse] at h
  | case2 depth quote c s ih =>
      obtain ⟨front, rfl, hf⟩ := ih h
      refine ⟨'\\' :: c :: front, rfl, ?_⟩
      rw [closeBracket_escape]
      exact hf
  | case3 depth quote c s hs ih =>
      have hc : c ≠ '\\' := ne_backslash_of_row (ne_nil_of_closeBracket h) hs
      obtain ⟨front, rfl, hf⟩ := ih h
      refine ⟨c :: front, rfl, ?_⟩
      rw [closeBracket_inQuote depth quote hc]
      exact hf
  | case4 depth c s hq ih =>
      obtain ⟨front, rfl, hf⟩ := ih h
      refine ⟨c :: front, rfl, ?_⟩
      rw [closeBracket_quote depth hq]
      exact hf
  | case5 => simp [Reading.refuse] at h
  | case6 depth s hq hs ih =>
      obtain ⟨front, rfl, hf⟩ := ih h
      refine ⟨opening :: front, rfl, ?_⟩
      have hs' : ¬(isSigil opening && startsName front) = true := by
        rwa [← startsName_append (ne_nil_of_closeBracket hf) rest]
      rw [closeBracket_outside depth hq hs', if_pos rfl]
      exact hf
  | case7 s hq hs hne =>
      cases h
      have hs' : ¬(isSigil closing && startsName []) = true := by simp [startsName]
      refine ⟨[closing], rfl, ?_⟩
      rw [closeBracket_outside 0 hq hs', if_neg hne, if_pos rfl]
  | case8 s depth hq hs hne ih =>
      obtain ⟨front, rfl, hf⟩ := ih h
      refine ⟨closing :: front, rfl, ?_⟩
      have hs' : ¬(isSigil closing && startsName front) = true := by
        rwa [← startsName_append (ne_nil_of_closeBracket hf) rest]
      rw [closeBracket_outside (depth + 1) hq hs', if_neg hne, if_pos rfl]
      exact hf
  | case9 depth c s hq hs hne hne' ih =>
      obtain ⟨front, rfl, hf⟩ := ih h
      refine ⟨c :: front, rfl, ?_⟩
      have hs' : ¬(isSigil c && startsName front) = true := by
        rwa [← startsName_append (ne_nil_of_closeBracket hf) rest]
      rw [closeBracket_outside depth hq hs', if_neg hne, if_neg hne']
      exact hf

/-- A bracketed text is read whatever follows it. -/
theorem bracketed_append (hcl : isSigil closing = false) {s rest : List Char} {u : Unit}
    (more : List Char) (h : bracketed opening closing s = .found u rest) :
    bracketed opening closing (s ++ more) = .found u (rest ++ more) := by
  cases s with
  | nil => simp [bracketed, Reading.miss] at h
  | cons c s =>
      simp only [bracketed, List.cons_append] at h ⊢
      split at h
      · next hc =>
          rw [if_pos hc]
          exact closeBracket_append hcl more h
      · simp [Reading.miss] at h

/-- What is read as a bracketed text is one by itself. -/
theorem bracketed_cut {s rest : List Char} {u : Unit}
    (h : bracketed opening closing s = .found u rest) :
    ∃ front, s = front ++ rest ∧ bracketed opening closing front = .found u [] := by
  cases s with
  | nil => simp [bracketed, Reading.miss] at h
  | cons c s =>
      simp only [bracketed] at h
      split at h
      · next hc =>
          obtain ⟨front, rfl, hf⟩ := closeBracket_cut h
          refine ⟨c :: front, rfl, ?_⟩
          rw [bracketed, if_pos hc]
          exact hf
      · simp [Reading.miss] at h

/-- Behind an opening bracket every stop is final: nothing else is tried. -/
theorem committed_of_closeBracket {depth : Nat} {quote : Option Char}
    {s : List Char} {stop : Stop}
    (h : closeBracket opening closing depth quote s = .failed stop) : stop.committed = true := by
  fun_induction closeBracket opening closing depth quote s with
  | case1 =>
      cases h
      rfl
  | case2 depth quote c s ih => exact ih h
  | case3 depth quote c s _ ih => exact ih h
  | case4 depth c s hq ih => exact ih h
  | case5 depth c s hq hs =>
      cases h
      rfl
  | case6 depth s hq hs ih => exact ih h
  | case7 s hq hs hne => simp at h
  | case8 s depth hq hs hne ih => exact ih h
  | case9 depth c s hq hs hne hne' ih => exact ih h

/-- A bracketed text starts with its bracket. -/
theorem exists_cons_of_bracketed {s rest : List Char} {u : Unit}
    (h : bracketed opening closing s = .found u rest) : ∃ s', s = opening :: s' := by
  cases s with
  | nil => simp [bracketed, Reading.miss] at h
  | cons c s =>
      simp only [bracketed] at h
      split at h
      · next hc => exact ⟨s, by rw [hc]⟩
      · simp [Reading.miss] at h

end Brackets

/-! ## §3. Texts that are taken up entirely. -/

/-- What was read is what stands in front of the rest. -/
theorem textBefore_append (front rest : List Char) : textBefore (front ++ rest) rest = front := by
  simp [textBefore]

/-- A reader that has both directions gives exactly the texts that it takes up
entirely. -/
theorem verbatim_eq_found_iff {reader : List Char → Reading Unit}
    (append : ∀ {s rest : List Char} (more : List Char),
      reader s = .found () rest → reader (s ++ more) = .found () (rest ++ more))
    (cut : ∀ {s rest : List Char}, reader s = .found () rest →
      ∃ front, s = front ++ rest ∧ reader front = .found () [])
    {s rest : List Char} {text : String} :
    verbatim reader s = .found text rest ↔
      s = text.toList ++ rest ∧ reader text.toList = .found () [] := by
  constructor
  · intro h
    obtain ⟨u, mid, hu, hmid⟩ := Reading.andThen_eq_found.1 h
    cases hmid
    -- the text in front of what is left is what the reader takes up
    obtain ⟨front, rfl, hf⟩ := cut hu
    rw [textBefore_append, String.toList_ofList]
    exact ⟨rfl, hf⟩
  · intro hx
    obtain ⟨rfl, h⟩ := hx
    rw [verbatim, append rest h, Reading.andThen_found, List.nil_append, textBefore_append,
      String.ofList_toList]

end SecurityRules.Shorthand
