/-
  SecurityRules.Shorthand.Words
  ────────────────────────────────
  **NAMES, PATHS AND BARE WORDS.**

  A bare word is the loosest literal of the shorthand: an identifier, a dotted
  path, a number or a call such as `f(x).y`, with an optional `!` and an
  optional `-` in front.  Three texts of that form are not bare words:

    * the empty one;
    * one that starts with its arguments — a parenthesis opens a group, except
      behind a sign, as in `!(a in b)`;
    * a reserved word.
-/
import SecurityRules.Shorthand.RawText

namespace SecurityRules.Shorthand

open SecurityRules.Text

/-! ## §1. Names and paths. -/

/-- Reads a name. -/
def name : List Char → Reading String
  | [] => .miss []
  | c :: rest =>
      if isNameStart c then
        .found (String.ofList (c :: rest.takeWhile isNameChar)) (rest.dropWhile isNameChar)
      else
        .miss (c :: rest)

/-- Reads a path: one or more word characters. -/
def path : List Char → Reading String
  | [] => .miss []
  | c :: rest =>
      if isWordChar c then
        .found (String.ofList (c :: rest.takeWhile isWordChar)) (rest.dropWhile isWordChar)
      else
        .miss (c :: rest)

/-! ## §2. Symbols and keywords. -/

/-- The text behind `symbol`, if it stands here. -/
def afterSymbol (symbol : String) (s : List Char) : Option (List Char) :=
  symbol.toList.isPrefixOf? s

/-- The text behind `word`, if it stands here and does not run on into
another word character. -/
def afterKeyword (word : String) (s : List Char) : Option (List Char) :=
  (afterSymbol word s).filter fun rest => !rest.head?.any isWordChar

/-- The words that are no operands. -/
def reservedWords : List String :=
  ["AND", "and", "OR", "or", "in", "is"]

/-! ## §3. Bare words. -/

/-- The text behind `sign`, which may be missing. -/
def afterSign (sign : Char) : List Char → List Char
  | [] => []
  | c :: rest => if c = sign then rest else c :: rest

/-- Reads the arguments of a call and the word characters behind them. -/
def callSuffix (s : List Char) : Reading Unit :=
  (callArguments s).andThen fun _ rest => .found () (rest.dropWhile isWordChar)

/-- Whether the text from `s` to `rest` can be a bare word, where `body` is
what follows the signs. -/
def admissibleWord (s body rest : List Char) : Bool :=
  decide (rest.length < body.length)
    && (decide (body.length < s.length) || body.head? != some '(')
    && !reservedWords.contains (String.ofList (textBefore s rest))

/-- Reads a bare word. -/
def bareWord (s : List Char) : Reading String :=
  let body := afterSign '-' (afterSign '!' s)
  -- signs, a word, and any number of calls, each of which may be missing
  (Reading.many callSuffix (body.dropWhile isWordChar)).andThen fun _ rest =>
    if admissibleWord s body rest then
      .found (String.ofList (textBefore s rest)) rest
    else
      .miss s

/-! ## §4. Progress. -/

/-- A name takes at least one character. -/
theorem advancesAt_name (s : List Char) : Reading.AdvancesAt name s := by
  intro text rest h
  cases s with
  | nil => simp [name, Reading.miss] at h
  | cons c s =>
      simp only [name] at h
      split at h
      · cases h
        have hs : s.dropWhile isNameChar <:+ s := List.dropWhile_suffix _
        exact ⟨hs.trans (List.suffix_cons _ _), Nat.lt_succ_of_le hs.length_le⟩
      · simp [Reading.miss] at h

theorem advancesAt_path (s : List Char) : Reading.AdvancesAt path s := by
  intro text rest h
  cases s with
  | nil => simp [path, Reading.miss] at h
  | cons c s =>
      simp only [path] at h
      split at h
      · cases h
        have hs : s.dropWhile isWordChar <:+ s := List.dropWhile_suffix _
        exact ⟨hs.trans (List.suffix_cons _ _), Nat.lt_succ_of_le hs.length_le⟩
      · simp [Reading.miss] at h

/-- The empty text stands everywhere. -/
theorem isPrefixOf?_nil (s : List Char) : [].isPrefixOf? s = some s := rfl

theorem isPrefixOf?_cons (c d : Char) (front s : List Char) :
    (c :: front).isPrefixOf? (d :: s) = if c == d then front.isPrefixOf? s else none := rfl

theorem isPrefixOf?_cons_nil (c : Char) (front : List Char) :
    (c :: front).isPrefixOf? [] = none := rfl

/-- A symbol is read where it stands, whatever follows. -/
theorem afterSymbol_eq_some {symbol : String} {s rest : List Char} :
    afterSymbol symbol s = some rest ↔ s = symbol.toList ++ rest := by
  unfold afterSymbol
  generalize symbol.toList = front
  induction front generalizing s with
  | nil => rw [isPrefixOf?_nil, Option.some_inj, List.nil_append]
  | cons c front ih =>
      cases s with
      | nil => simp [isPrefixOf?_cons_nil]
      | cons d s =>
          simp only [isPrefixOf?_cons, beq_iff_eq, List.cons_append, List.cons.injEq]
          split
          · next h => simp [ih, h]
          · next h => simp [Ne.symm h]

/-- A keyword is only read where its word ends. -/
theorem afterKeyword_eq_some {word : String} {s rest : List Char} :
    afterKeyword word s = some rest ↔
      s = word.toList ++ rest ∧ rest.head?.any isWordChar = false := by
  simp [afterKeyword, Option.filter_eq_some_iff, afterSymbol_eq_some]

/-- A sign may be there or not. -/
theorem afterSign_suffix (sign : Char) (s : List Char) : afterSign sign s <:+ s := by
  cases s with
  | nil => exact List.suffix_refl _
  | cons c s =>
      simp only [afterSign]
      split
      · exact List.suffix_cons _ _
      · exact List.suffix_refl _

/-- A call takes its opening parenthesis. -/
theorem advancesAt_callSuffix (s : List Char) : Reading.AdvancesAt callSuffix s := by
  intro u rest h
  obtain ⟨v, mid, hmid, hrest⟩ := Reading.andThen_eq_found.1 h
  cases hrest
  obtain ⟨hs, hlt⟩ := advancesAt_bracketed '(' ')' s v mid hmid
  have hd : mid.dropWhile isWordChar <:+ mid := List.dropWhile_suffix _
  exact ⟨hd.trans hs, Nat.lt_of_le_of_lt hd.length_le hlt⟩

/-- A bare word is the text in front of what it leaves, and takes something of
what follows its signs. -/
theorem bareWord_eq_found {s rest : List Char} {text : String}
    (h : bareWord s = .found text rest) :
    text = String.ofList (textBefore s rest) ∧ rest <:+ afterSign '-' (afterSign '!' s)
      ∧ admissibleWord s (afterSign '-' (afterSign '!' s)) rest = true := by
  obtain ⟨us, mid, hmid, hrest⟩ := Reading.andThen_eq_found.1 h
  split at hrest
  · next hok =>
    cases hrest
    exact ⟨rfl, (Reading.suffix_of_many (fun r _ => advancesAt_callSuffix r) hmid).trans
      (List.dropWhile_suffix _), hok⟩
  · simp [Reading.miss] at hrest

theorem advancesAt_bareWord (s : List Char) : Reading.AdvancesAt bareWord s := by
  intro text rest h
  obtain ⟨-, hsuffix, hok⟩ := bareWord_eq_found h
  have hbody := (afterSign_suffix '-' (afterSign '!' s)).trans (afterSign_suffix '!' s)
  simp only [admissibleWord, Bool.and_eq_true, decide_eq_true_eq] at hok
  exact ⟨hsuffix.trans hbody, Nat.lt_of_lt_of_le hok.1.1 hbody.length_le⟩

end SecurityRules.Shorthand
