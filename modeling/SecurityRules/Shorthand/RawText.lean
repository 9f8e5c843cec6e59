/-
  SecurityRules.Shorthand.RawText
  ────────────────────────────────
  **TEXT THAT IS KEPT AS IT STANDS.**

  Quoted strings and bracketed lists and arguments are kept character by
  character, so all that has to be known of them is where they end.

    * A quoted text ends at the next quote of its kind; a backslash takes the
      next character with it.
    * A bracketed text ends at the bracket that balances its first one.  Only
      brackets of its own kind count, and quoted texts inside it are passed
      over.

  A reference inside bracketed text would never be resolved, so `$` or `@` in
  front of a name is an error there.  In front of anything else, as in the
  path piece `$(database)`, it is ordinary text.
-/
import SecurityRules.Text.Character
import SecurityRules.Shorthand.Reading

namespace SecurityRules.Shorthand

open SecurityRules.Text

/-! ## §1. Quoted text. -/

/-- The characters that open and close a quoted text. -/
def isQuote (c : Char) : Bool :=
  c == '"' || c == '\x27'

/-- The text behind the closing `quote`, if there is one. -/
def afterQuote (quote : Char) : List Char → Option (List Char)
  | [] => none
  | '\\' :: _ :: rest => afterQuote quote rest
  | c :: rest => if c = quote then some rest else afterQuote quote rest

/-- Reads a quoted text. Without its closing quote the whole text is used up. -/
def quoted : List Char → Reading Unit
  | [] => .miss []
  | c :: rest =>
      if isQuote c then
        match afterQuote c rest with
        | some behind => .found () behind
        | none => .refuse [] []
      else
        .miss (c :: rest)

/-! ## §2. Bracketed text. -/

/-- The characters that open a reference. -/
def isSigil (c : Char) : Bool :=
  c == '$' || c == '@'

/-- Whether a name starts here. -/
def startsName (s : List Char) : Bool :=
  s.head?.any isNameStart

/-- Reads to the bracket that balances an opening one, where `depth` counts
the further brackets that are open and `quote` is the quote that is open. -/
def closeBracket (opening closing : Char) :
    (depth : Nat) → (quote : Option Char) → List Char → Reading Unit
  | _, _, [] => .refuse [] []
  -- inside a quoted text brackets and sigils mean nothing
  | depth, some quote, '\\' :: _ :: rest => closeBracket opening closing depth (some quote) rest
  | depth, some quote, c :: rest =>
      closeBracket opening closing depth (if c = quote then none else some quote) rest
  | depth, none, c :: rest =>
      if isQuote c then closeBracket opening closing depth (some c) rest
      else if isSigil c && startsName rest then .refuse rest [.referenceInRawText]
      else if c = opening then closeBracket opening closing (depth + 1) none rest
      else if c = closing then
        match depth with
        -- the bracket that balances the first one
        | 0 => .found () rest
        | depth + 1 => closeBracket opening closing depth none rest
      else closeBracket opening closing depth none rest

/-- Reads a bracketed text. -/
def bracketed (opening closing : Char) : List Char → Reading Unit
  | [] => .miss []
  | c :: rest =>
      if c = opening then closeBracket opening closing 0 none rest else .miss (c :: rest)

/-- Reads the arguments of a call. -/
def callArguments : List Char → Reading Unit :=
  bracketed '(' ')'

/-- Reads a list in square brackets. -/
def bracketList : List Char → Reading Unit :=
  bracketed '[' ']'

/-! ## §3. The text that was read. -/

/-- What of `s` comes before its end `rest`. -/
def textBefore (s rest : List Char) : List Char :=
  s.take (s.length - rest.length)

/-- Turns a reader that only finds an end into one that gives the text up to
there. -/
def verbatim {α : Type} (reader : List Char → Reading α) (s : List Char) : Reading String :=
  (reader s).andThen fun _ rest => .found (String.ofList (textBefore s rest)) rest

/-! ## §4. Progress. -/

/-- What is left behind a quote is an end of the text. -/
theorem afterQuote_suffix {quote : Char} {s rest : List Char}
    (h : afterQuote quote s = some rest) : rest <:+ s := by
  fun_induction afterQuote quote s with
  | case1 => simp at h
  | case2 c s ih => exact (ih h).trans ((List.suffix_cons _ _).trans (List.suffix_cons _ _))
  | case3 s =>
      cases h
      exact List.suffix_cons _ _
  | case4 c s _ hne ih => exact (ih h).trans (List.suffix_cons _ _)

theorem advancesAt_quoted (s : List Char) : Reading.AdvancesAt quoted s := by
  intro u rest h
  cases s with
  | nil => simp [quoted, Reading.miss] at h
  | cons c s =>
      simp only [quoted] at h
      split at h
      · split at h
        · next behind hq =>
            cases h
            have hs := afterQuote_suffix hq
            exact ⟨hs.trans (List.suffix_cons _ _), Nat.lt_succ_of_le hs.length_le⟩
        · simp [Reading.refuse] at h
      · simp [Reading.miss] at h

/-- So is what is left behind a bracket. -/
theorem closeBracket_suffix {opening closing : Char} {depth : Nat} {quote : Option Char}
    {s rest : List Char} {u : Unit}
    (h : closeBracket opening closing depth quote s = .found u rest) : rest <:+ s := by
  fun_induction closeBracket opening closing depth quote s with
  | case1 => simp [Reading.refuse] at h
  | case2 depth quote c s ih =>
      exact (ih h).trans ((List.suffix_cons _ _).trans (List.suffix_cons _ _))
  | case3 depth quote c s _ ih => exact (ih h).trans (List.suffix_cons _ _)
  | case4 depth c s hq ih => exact (ih h).trans (List.suffix_cons _ _)
  | case5 depth c s hq hs => simp [Reading.refuse] at h
  | case6 depth s hq hs ih => exact (ih h).trans (List.suffix_cons _ _)
  | case7 s hq hs hne =>
      cases h
      exact List.suffix_cons _ _
  | case8 s hq hs hne depth ih => exact (ih h).trans (List.suffix_cons _ _)
  | case9 depth c s hq hs hne hne' ih => exact (ih h).trans (List.suffix_cons _ _)

theorem advancesAt_bracketed (opening closing : Char) (s : List Char) :
    Reading.AdvancesAt (bracketed opening closing) s := by
  intro u rest h
  cases s with
  | nil => simp [bracketed, Reading.miss] at h
  | cons c s =>
      simp only [bracketed] at h
      split at h
      · have hs := closeBracket_suffix h
        exact ⟨hs.trans (List.suffix_cons _ _), Nat.lt_succ_of_le hs.length_le⟩
      · simp [Reading.miss] at h

/-- The text that was read is known from what is left. -/
theorem advancesAt_verbatim {α : Type} {reader : List Char → Reading α} {s : List Char}
    (h : Reading.AdvancesAt reader s) : Reading.AdvancesAt (verbatim reader) s := by
  intro text rest ht
  obtain ⟨a, mid, ha, hmid⟩ := Reading.andThen_eq_found.1 ht
  cases hmid
  exact h a _ ha

end SecurityRules.Shorthand
