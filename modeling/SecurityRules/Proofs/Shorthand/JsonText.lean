/-
  SecurityRules.Proofs.Shorthand.JsonText
  ────────────────────────────────
  **JSON AS RAW TEXT.**

  Lists of keys and of admitted values stand in rules as JSON.  Whatever the
  strings in them contain, the shorthand reads such a list as one raw text: an
  escaped string ends where its closing quote stands, and outside strings there
  is nothing that a scan for brackets stops at.

    * `afterQuote_jsonEscape` — no escaped character closes a string;
    * `bracketList_jsonArray` — an array is read up to its end;
    * `passes_jsonArray` — and it can be the argument of a call.
-/
import SecurityRules.Schema.Kind
import SecurityRules.Proofs.Formula.Rendering
import SecurityRules.Proofs.Shorthand.Enclosing

namespace SecurityRules.Shorthand

open SecurityRules.Text

/-! ## §1. Texts between brackets of any kind. -/

section Brackets

variable {opening closing : Char}

/-- The characters of brackets. -/
def isBracket (c : Char) : Bool :=
  c == '(' || c == ')' || c == '[' || c == ']'

/-- Whether a character means nothing to a scan for brackets of any kind. -/
def isNeutral (c : Char) : Bool :=
  !isQuote c && !isSigil c && !isBracket c

/-- Neutral characters leave the scan for brackets of either kind as it is. -/
theorem passesBetween_of_neutral (hop : isBracket opening = true) (hcl : isBracket closing = true)
    {t : List Char} (h : t.all isNeutral = true) : PassesBetween opening closing t := by
  refine passesBetween_of_meansNothing (List.all_eq_true.2 fun c hc => ?_)
  have hneutral := List.all_eq_true.1 h c hc
  simp only [isNeutral, Bool.and_eq_true, Bool.not_eq_true'] at hneutral
  obtain ⟨⟨hq, hs⟩, hb⟩ := hneutral
  -- a bracket is no neutral character
  have hne : c ≠ opening := fun heq => by rw [heq, hop] at hb; cases hb
  have hne' : c ≠ closing := fun heq => by rw [heq, hcl] at hb; cases hb
  simp [meansNothing, hq, hs, hne, hne']

end Brackets

/-! ## §2. Strings. -/

/-- No hexadecimal digit is a quote or a backslash. -/
theorem hexDigit_ne {n : Nat} (hn : n < 16) : hexDigit n ≠ '"' ∧ hexDigit n ≠ '\\' := by
  have hall : ∀ k : Fin 16, hexDigit k ≠ '"' ∧ hexDigit k ≠ '\\' := by decide
  exact hall ⟨n, hn⟩

theorem afterQuote_ne {c : Char} (hc : c ≠ '"' ∧ c ≠ '\\') (s : List Char) :
    afterQuote '"' (c :: s) = afterQuote '"' s := by
  rw [afterQuote_plain hc.2, if_neg hc.1]

/-- No escaped character closes a string, and none leaves a backslash open. -/
theorem afterQuote_jsonEscape (c : Char) (s : List Char) :
    afterQuote '"' (jsonEscape c ++ s) = afterQuote '"' s := by
  unfold jsonEscape
  by_cases hquote : c = '"'
  · rw [if_pos hquote]
    exact afterQuote_escape '"' '"' s
  rw [if_neg hquote]
  by_cases hback : c = '\\'
  · rw [if_pos hback]
    exact afterQuote_escape '"' '\\' s
  rw [if_neg hback]
  split
  · exact afterQuote_escape '"' 'b' s
  split
  · exact afterQuote_escape '"' 'f' s
  split
  · exact afterQuote_escape '"' 'n' s
  split
  · exact afterQuote_escape '"' 'r' s
  split
  · exact afterQuote_escape '"' 't' s
  split
  · next hlow =>
      -- four hexadecimal digits behind the escaped letter
      have hfirst := hexDigit_ne (n := c.toNat / 16) (by omega)
      have hsecond := hexDigit_ne (n := c.toNat % 16) (by omega)
      show afterQuote '"' ('\\' :: 'u' :: '0' :: '0' :: _ :: _ :: s) = _
      rw [afterQuote_escape, afterQuote_ne (by decide), afterQuote_ne (by decide),
        afterQuote_ne hfirst, afterQuote_ne hsecond]
  · exact afterQuote_ne ⟨hquote, hback⟩ s

/-- An escaped string ends at the quote behind it. -/
theorem afterQuote_flatMap_jsonEscape (text rest : List Char) :
    afterQuote '"' (text.flatMap jsonEscape ++ '"' :: rest) = some rest := by
  induction text with
  | nil => rfl
  | cons c text ih =>
      rw [List.flatMap_cons, List.append_assoc, afterQuote_jsonEscape]
      exact ih

/-- A string in JSON is one quoted text. -/
theorem quoted_jsonString (text : String) : quoted (jsonString text).toList = .found () [] := by
  have hclose := afterQuote_flatMap_jsonEscape text.toList []
  rw [jsonString, String.toList_ofList, List.cons_append, quoted, if_pos (by decide), hclose]

/-! ## §3. Values and arrays. -/

/-- An array is its values with commas between them, in square brackets. -/
theorem toList_jsonArray (values : List String) :
    (jsonArray values).toList
      = '[' :: (",".toList.intercalate (values.map String.toList) ++ [']']) := by
  rw [jsonArray, String.toList_append, String.toList_append, String.toList_intercalate,
    List.append_assoc]
  rfl

/-- Between the brackets of an array there are commas, and the values. -/
theorem passesBetween_body {opening closing : Char} (hop : isBracket opening = true)
    (hcl : isBracket closing = true) {values : List String}
    (h : ∀ value ∈ values, PassesBetween opening closing value.toList) :
    PassesBetween opening closing (",".toList.intercalate (values.map String.toList)) := by
  cases values with
  | nil => exact fun depth rest => rfl
  | cons value values =>
      have hsep : PassesBetween opening closing ",".toList :=
        passesBetween_of_neutral hop hcl (by decide +kernel)
      refine intercalate_of_append PassesBetween.append hsep (List.cons_ne_nil _ _) ?_
      intro text htext
      obtain ⟨json, hjson, rfl⟩ := List.mem_map.1 htext
      exact h json hjson

/-- An array is read up to its end. -/
theorem bracketList_jsonArray {values : List String}
    (h : ∀ value ∈ values, PassesBetween '[' ']' value.toList) :
    bracketList (jsonArray values).toList = .found () [] := by
  rw [toList_jsonArray]
  show closeBracket '[' ']' 0 none (_ ++ [']']) = _
  rw [passesBetween_body (by decide) (by decide) h]
  rfl

/-- An array can be the argument of a call. -/
theorem passes_jsonArray {values : List String}
    (h : ∀ value ∈ values, PassesBetween '(' ')' value.toList) :
    Passes (jsonArray values).toList := by
  have hopen : Passes ['['] := passes_of_plain (by decide)
  have hclose : Passes [']'] := passes_of_plain (by decide)
  have hbody : Passes (",".toList.intercalate (values.map String.toList)) :=
    passesBetween_body (by decide) (by decide) h
  rw [toList_jsonArray]
  exact hopen.append (hbody.append hclose)

theorem isNeutral_of_isDigit {c : Char} (h : c.isDigit = true) : isNeutral c = true := by
  cases hn : isNeutral c with
  | true => rfl
  | false =>
      exfalso
      simp only [isNeutral, isQuote, isSigil, isBracket, Bool.and_eq_false_iff,
        Bool.not_eq_false', Bool.or_eq_true, beq_iff_eq] at hn
      rcases hn with ((rfl | rfl) | (rfl | rfl)) | (((rfl | rfl) | rfl) | rfl) <;>
        exact absurd h (by decide)

/-- A number is written in digits, behind a sign where it is negative. -/
theorem all_isNeutral_toString (n : Int) : (toString n).toList.all isNeutral = true := by
  have hnat : ∀ m : Nat, (toString m).toList.all isNeutral = true := by
    intro m
    refine List.all_eq_true.2 fun c hc => isNeutral_of_isDigit ?_
    have hdigits : (toString m).toList = Nat.toDigits 10 m := by
      show (Nat.repr m).toList = _
      rw [Nat.repr, String.toList_ofList]
    rw [hdigits] at hc
    exact Nat.isDigit_of_mem_toDigits (by decide : 0 < 10) (by decide) hc
  cases n with
  | ofNat m => exact hnat m
  | negSucc m =>
      show ("-" ++ toString (m + 1)).toList.all isNeutral = true
      rw [String.toList_append, List.all_append, hnat]
      decide +kernel

/-- A value leaves the scan as it is: a number is neutral, and a string is
quoted. -/
theorem passesBetween_json {opening closing : Char} (hop : isBracket opening = true)
    (hcl : isBracket closing = true) (value : Value) :
    PassesBetween opening closing value.json.toList := by
  cases value with
  | integer n => exact passesBetween_of_neutral hop hcl (all_isNeutral_toString n)
  | text s => exact passesBetween_of_quoted (quoted_jsonString s)

theorem passesBetween_jsonItems {opening closing : Char} (hop : isBracket opening = true)
    (hcl : isBracket closing = true) (values : List Value) :
    ∀ json ∈ values.map Value.json, PassesBetween opening closing json.toList := by
  intro json hjson
  obtain ⟨value, -, rfl⟩ := List.mem_map.1 hjson
  exact passesBetween_json hop hcl value

/-- A list of values is read up to its end. -/
theorem bracketList_jsonList (values : List Value) :
    bracketList (Value.jsonList values).toList = .found () [] :=
  bracketList_jsonArray (passesBetween_jsonItems (by decide) (by decide) values)

/-- A list of values is a literal that can be put between parentheses. -/
theorem isLiteral_jsonList (values : List Value) :
    IsLiteral (Value.jsonList values) ∧ Passes (Value.jsonList values).toList :=
  ⟨.inr (.inl (bracketList_jsonList values)),
    passes_jsonArray (passesBetween_jsonItems (by decide) (by decide) values)⟩

/-- A list of strings can be put between parentheses. -/
theorem passes_jsonStrings (texts : List String) : Passes (jsonStrings texts).toList := by
  refine passes_jsonArray fun json hjson => ?_
  obtain ⟨text, -, rfl⟩ := List.mem_map.1 hjson
  exact passesBetween_of_quoted (quoted_jsonString text)

end SecurityRules.Shorthand
