/-
  SecurityRules.Proofs.Shorthand.BareWord
  ────────────────────────────────
  **WHERE BARE WORDS END.**

  A bare word is made of signs and of a body, word characters and the
  arguments of calls in any order.  The reader takes as much of it as there
  is, so a bare word ends where neither a word character nor an argument
  follows (`endsWord`).

  Main statement: `bareWord_eq_found_iff` — a bare word is read exactly where
  it stands and ends.
-/
import SecurityRules.Shorthand.Words
import SecurityRules.Proofs.Shorthand.RawText

namespace SecurityRules.Shorthand

open SecurityRules.Text

/-! ## §1. Bodies. -/

/-- Whether a bare word in front of `rest` ends there. -/
def endsWord (rest : List Char) : Bool :=
  !rest.head?.any fun c => isWordChar c || c == '('

/-- What a bare word is made of behind its signs: word characters and the
arguments of calls, in any order. -/
inductive WordBody : List Char → Prop where
  | nil : WordBody []
  | char {c : Char} {s : List Char} (hc : isWordChar c = true) (hs : WordBody s) :
      WordBody (c :: s)
  | call {args s : List Char} (ha : callArguments args = .found () []) (hs : WordBody s) :
      WordBody (args ++ s)

/-- Bodies may follow each other. -/
theorem WordBody.append {s t : List Char} (hs : WordBody s) (ht : WordBody t) :
    WordBody (s ++ t) := by
  induction hs with
  | nil => exact ht
  | char hc _ ih => exact .char hc ih
  | call ha _ ih =>
      rw [List.append_assoc]
      exact .call ha ih

theorem WordBody.of_all {s : List Char} (hs : s.all isWordChar = true) : WordBody s := by
  induction s with
  | nil => exact .nil
  | cons c s ih =>
      obtain ⟨hc, hs⟩ := Bool.and_eq_true_iff.1 hs
      exact .char hc (ih hs)

/-! ## §2. Reading a body. -/

/-- Reads what a bare word is made of behind its signs. -/
def wordAndCalls (s : List Char) : Reading (List Unit) :=
  Reading.many callSuffix (s.dropWhile isWordChar)

/-- Where a word may end, the reader of bodies takes nothing. -/
theorem wordAndCalls_of_endsWord {rest : List Char} (h : endsWord rest = true) :
    wordAndCalls rest = .found [] rest := by
  cases rest with
  | nil => exact Reading.many_of_miss (by rfl)
  | cons c rest =>
      have hc : isWordChar c = false ∧ c ≠ '(' := by simpa [endsWord] using h
      have hd : (c :: rest).dropWhile isWordChar = c :: rest := by
        rw [List.dropWhile_cons_of_neg (by simp [hc.1])]
      have hm : callSuffix (c :: rest) = .miss (c :: rest) := by
        show (callArguments (c :: rest)).andThen _ = _
        rw [callArguments, bracketed, if_neg hc.2]
        rfl
      unfold wordAndCalls
      rw [hd]
      exact Reading.many_of_miss hm

/-- The arguments of a call count as one piece of the body, whatever follows
them. -/
theorem wordAndCalls_call {args : List Char} (ha : callArguments args = .found () [])
    (s : List Char) : wordAndCalls (args ++ s) = (wordAndCalls s).map (() :: ·) := by
  obtain ⟨args', rfl⟩ := exists_cons_of_bracketed ha
  have happ : callArguments ('(' :: args' ++ s) = .found () s :=
    bracketed_append (by decide) s ha
  have hfound : callSuffix ('(' :: args' ++ s) = .found () (s.dropWhile isWordChar) := by
    unfold callSuffix
    rw [happ]
    rfl
  have hlt := (advancesAt_callSuffix _ _ _ hfound).2
  exact Reading.many_of_found hfound hlt

/-- A body is read up to any text that ends the word. -/
theorem wordAndCalls_append {body : List Char} (hb : WordBody body) {rest : List Char}
    (h : endsWord rest = true) : ∃ us, wordAndCalls (body ++ rest) = .found us rest := by
  induction hb with
  | nil => exact ⟨[], wordAndCalls_of_endsWord h⟩
  | @char c s hc _ ih =>
      obtain ⟨us, hus⟩ := ih
      refine ⟨us, ?_⟩
      unfold wordAndCalls at hus ⊢
      rw [List.cons_append, List.dropWhile_cons_of_pos hc]
      exact hus
  | @call args s ha _ ih =>
      obtain ⟨us, hus⟩ := ih
      refine ⟨() :: us, ?_⟩
      rw [List.append_assoc, wordAndCalls_call ha, hus]
      rfl

/-- Arguments that are opened have to be closed. -/
theorem committed_of_callSuffix {s : List Char} {stop : Stop}
    (h : callSuffix ('(' :: s) = .failed stop) : stop.committed = true := by
  have hopen : callArguments ('(' :: s) = closeBracket '(' ')' 0 none s := rfl
  rw [callSuffix, hopen] at h
  cases hb : closeBracket '(' ')' 0 none s with
  | found u rest => simp [hb] at h
  | failed stop' =>
      rw [hb] at h
      cases h
      exact committed_of_closeBracket hb

theorem head?_dropWhile (p : Char → Bool) (s : List Char) :
    (s.dropWhile p).head?.any p = false := by
  have h := List.head?_dropWhile_not p s
  cases hd : (s.dropWhile p).head? with
  | none => rfl
  | some c => simpa [hd] using h

/-- What a repetition of calls takes is a body, and a word may end behind it.
The induction is along the repetition: each round takes the arguments of a call
with the word behind them. -/
theorem body_of_many {s rest : List Char} {us : List Unit}
    (hs : s.head?.any isWordChar = false) (h : Reading.many callSuffix s = .found us rest) :
    ∃ body, WordBody body ∧ s = body ++ rest ∧ endsWord rest = true := by
  fun_induction Reading.many callSuffix s generalizing us with
  | case1 s a mid hcall hlt ih =>
      obtain ⟨us', hmany, -⟩ := Reading.map_eq_found.1 h
      obtain ⟨u, after, hargs, hmid⟩ := Reading.andThen_eq_found.1 hcall
      cases hmid
      -- the arguments, the word behind them, and what the repetition goes on with
      obtain ⟨args, rfl, ha⟩ := bracketed_cut hargs
      obtain ⟨body, hb, he, hrest⟩ := ih (head?_dropWhile isWordChar after) hmany
      have hw : WordBody (after.takeWhile isWordChar) :=
        .of_all List.all_takeWhile
      refine ⟨args ++ (after.takeWhile isWordChar ++ body), .call ha (hw.append hb), ?_, hrest⟩
      rw [List.append_assoc, List.append_assoc, ← he, List.takeWhile_append_dropWhile]
  | case2 s a mid hcall hlt => exact absurd (advancesAt_callSuffix s a mid hcall).2 hlt
  | case3 s stop hcall hc => simp at h
  | case4 s stop hcall hc =>
      cases h
      refine ⟨[], .nil, rfl, ?_⟩
      cases rest with
      | nil => rfl
      | cons c rest =>
          -- arguments that are opened and not closed would have ended all reading
          have hne : c ≠ '(' := by
            intro heq
            subst heq
            exact hc (committed_of_callSuffix hcall)
          have hw : isWordChar c = false := by simpa using hs
          simp [endsWord, hw, hne]

/-- What the reader of bodies takes is a body. -/
theorem wordAndCalls_eq_found {s rest : List Char} {us : List Unit}
    (h : wordAndCalls s = .found us rest) :
    ∃ body, WordBody body ∧ s = body ++ rest ∧ endsWord rest = true := by
  obtain ⟨body, hb, he, hrest⟩ := body_of_many (head?_dropWhile isWordChar s) h
  have hw : WordBody (s.takeWhile isWordChar) := .of_all List.all_takeWhile
  refine ⟨s.takeWhile isWordChar ++ body, hw.append hb, ?_, hrest⟩
  rw [List.append_assoc, ← he, List.takeWhile_append_dropWhile]

/-! ## §3. Signs and bare words. -/

/-- The signs that a bare word may start with. -/
def signs : List (List Char) :=
  [[], ['!'], ['-'], ['!', '-']]

/-- The texts that are bare words. -/
inductive IsBareWord : List Char → Prop where
  | intro {sign body : List Char} (hsign : sign ∈ signs) (hbody : WordBody body)
      (hne : body ≠ []) (hparen : sign = [] → body.head? ≠ some '(')
      (hres : String.ofList (sign ++ body) ∉ reservedWords) : IsBareWord (sign ++ body)

/-- A text with a character that no reserved word has is not reserved. -/
theorem notMem_reservedWords {t : List Char} {c : Char} (hc : c ∈ t)
    (hno : ∀ word ∈ reservedWords, c ∉ word.toList) : String.ofList t ∉ reservedWords := by
  intro hmem
  refine hno _ hmem ?_
  rw [String.toList_ofList]
  exact hc

/-- No sign is part of a body. -/
theorem WordBody.exists_cons {body : List Char} (hb : WordBody body) (hne : body ≠ []) :
    ∃ c b, body = c :: b ∧ c ≠ '!' ∧ c ≠ '-' := by
  cases hb with
  | nil => exact absurd rfl hne
  | @char c s hc _ =>
      refine ⟨c, s, rfl, ?_, ?_⟩
      · intro heq
        subst heq
        exact absurd hc (by decide)
      · intro heq
        subst heq
        exact absurd hc (by decide)
  | @call args s ha _ =>
      obtain ⟨args', rfl⟩ := exists_cons_of_bracketed ha
      exact ⟨'(', args' ++ s, rfl, by decide, by decide⟩

/-- A bare word goes on with any body. -/
theorem IsBareWord.append {t body : List Char} (ht : IsBareWord t)
    (hbody : WordBody body) (hres : String.ofList (t ++ body) ∉ reservedWords) :
    IsBareWord (t ++ body) := by
  obtain ⟨hsign, hb, hne, hparen, -⟩ := ht
  rename_i sign b
  rw [List.append_assoc] at hres ⊢
  refine .intro hsign (hb.append hbody) (by simp [hne]) (fun hnil => ?_) hres
  obtain ⟨c, b, rfl, -, -⟩ := hb.exists_cons hne
  exact hparen hnil

/-- Behind the signs of a bare word stands its body. -/
theorem afterSigns_append {sign body : List Char} (hsign : sign ∈ signs) (hb : WordBody body)
    (hne : body ≠ []) (rest : List Char) :
    afterSign '-' (afterSign '!' (sign ++ body ++ rest)) = body ++ rest := by
  obtain ⟨c, b, rfl, hc, hc'⟩ := hb.exists_cons hne
  simp only [signs, List.mem_cons, List.not_mem_nil, or_false] at hsign
  rcases hsign with rfl | rfl | rfl | rfl <;> simp [afterSign, hc, hc']

theorem afterSign_cases (sign : Char) (s : List Char) :
    s = afterSign sign s ∨ s = sign :: afterSign sign s := by
  cases s with
  | nil => exact .inl rfl
  | cons c s =>
      by_cases hc : c = sign
      · exact .inr (by simp [afterSign, hc])
      · exact .inl (by simp [afterSign, hc])

/-- Every text has a sign in front of what the readers of signs leave, if only the
empty one. -/
theorem exists_signs (s : List Char) :
    ∃ sign ∈ signs, s = sign ++ afterSign '-' (afterSign '!' s) := by
  rcases afterSign_cases '!' s with h | h <;>
    rcases afterSign_cases '-' (afterSign '!' s) with h' | h'
  · exact ⟨[], by decide, h.trans h'⟩
  · exact ⟨['-'], by decide, h.trans h'⟩
  · exact ⟨['!'], by decide, h.trans (congrArg _ h')⟩
  · exact ⟨['!', '-'], by decide, h.trans (congrArg _ h')⟩

/-- **A bare word is read exactly where it stands and ends.** -/
theorem bareWord_eq_found_iff {s rest : List Char} {text : String} :
    bareWord s = .found text rest ↔
      s = text.toList ++ rest ∧ IsBareWord text.toList ∧ endsWord rest = true := by
  constructor
  · intro h
    obtain ⟨us, mid, hmid, hrest⟩ := Reading.andThen_eq_found.1 h
    split at hrest
    · next hok =>
        cases hrest
        -- the text is some signs, a body, and what is left
        obtain ⟨body, hb, he, hends⟩ := wordAndCalls_eq_found hmid
        obtain ⟨sign, hsign, hs⟩ := exists_signs s
        rw [he, ← List.append_assoc] at hs
        have htext : textBefore s rest = sign ++ body := by rw [hs, textBefore_append]
        obtain ⟨⟨hlt, hfirst⟩, hres⟩ : (rest.length < (body ++ rest).length
            ∧ ((body ++ rest).length < s.length ∨ (body ++ rest).head? ≠ some '('))
            ∧ String.ofList (sign ++ body) ∉ reservedWords := by
          rw [he, admissibleWord, htext] at hok
          simpa using hok
        have hne : body ≠ [] := by
          intro heq
          subst heq
          simp at hlt
        rw [htext, String.toList_ofList]
        refine ⟨hs, .intro hsign hb hne ?_ hres, hends⟩
        intro heq
        subst heq
        -- without a sign the body is the whole text, and its head is checked
        rcases hfirst with hlen | hhead
        · rw [hs] at hlen
          exact absurd hlen (Nat.lt_irrefl _)
        · obtain ⟨c, b, rfl, -, -⟩ := hb.exists_cons hne
          exact hhead
    · simp [Reading.miss] at hrest
  · intro h
    obtain ⟨rfl, hbare, hends⟩ := h
    generalize ht : text.toList = t at hbare
    obtain ⟨hsign, hb, hne, hparen, hres⟩ := hbare
    rename_i sign body
    have htext : text = String.ofList (sign ++ body) := by rw [← ht, String.ofList_toList]
    obtain ⟨us, hus⟩ := wordAndCalls_append hb hends
    have hbody := afterSigns_append hsign hb hne rest
    have hfirst : (body ++ rest).length < (sign ++ body ++ rest).length
        ∨ (body ++ rest).head? ≠ some '(' := by
      cases sign with
      | nil =>
          obtain ⟨c, b, rfl, -, -⟩ := hb.exists_cons hne
          exact .inr (hparen rfl)
      | cons c sign =>
          refine .inl ?_
          simp only [List.length_append, List.length_cons]
          omega
    have hok : admissibleWord (sign ++ body ++ rest) (body ++ rest) rest = true := by
      have hlt : rest.length < (body ++ rest).length := by
        have hpos : 0 < body.length := List.length_pos_iff.2 hne
        rw [List.length_append]
        omega
      simp only [admissibleWord, textBefore_append, Bool.and_eq_true, Bool.or_eq_true,
        decide_eq_true_eq, bne_iff_ne, Bool.not_eq_true', List.contains_eq_mem,
        decide_eq_false_iff_not]
      exact ⟨⟨hlt, hfirst⟩, hres⟩
    unfold bareWord
    rw [hbody]
    show (wordAndCalls (body ++ rest)).andThen _ = _
    rw [hus, Reading.andThen_found, if_pos hok, textBefore_append, htext]

end SecurityRules.Shorthand
