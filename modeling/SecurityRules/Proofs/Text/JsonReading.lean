/-
  SecurityRules.Proofs.Text.JsonReading
  ────────────────────────────────
  **READING JSON.**

  A reader for the whole of JSON, written from its grammar and without regard to
  how the library writes lists: space between any two tokens, escapes by a letter
  or by a number, characters beyond the basic plane in two numbers, fractions and
  exponents.  A raw control character in a string is refused, and so is a number
  with a zero too many in front.

    * `Json.decode` — the value that a text stands for;
    * `Json.character_jsonEscape` — an escaped character is read back;
    * `Json.quoted_jsonString` — so is a string;
    * `Json.numeral_toString` — so is an integer, in front of anything that does
      not go on with it.
-/
import SecurityRules.Proofs.Shorthand.JsonText

namespace SecurityRules

open Shorthand (Reading afterSymbol takeWhile_append_of_all dropWhile_append_of_all)
open SecurityRules.Text (hexDigit jsonEscape jsonString)

/-! ## §1. Values. -/

/-- A value in JSON. -/
inductive Json where
  | null
  | bool (value : Bool)
  /-- `mantissa` times the power of ten with `exponent`. -/
  | number (mantissa exponent : Int)
  | string (text : String)
  | array (items : List Json)
  | object (members : List (String × Json))

namespace Json

/-! ## §2. Marks and space. -/

/-- The characters that may stand between tokens. -/
def isSpace (c : Char) : Bool :=
  c == ' ' || c == '\t' || c == '\n' || c == '\r'

/-- The text without space in front. -/
def afterSpace (s : List Char) : List Char :=
  s.dropWhile isSpace

/-- Reads one character, which is given, behind any space. -/
def mark (c : Char) (s : List Char) : Reading Unit :=
  match afterSpace s with
  | [] => .miss []
  | d :: rest => if d = c then .found () rest else .miss (d :: rest)

/-! ## §3. Strings. -/

/-- The number that a hexadecimal digit stands for. -/
def hexValue? (c : Char) : Option Nat :=
  if c.isDigit then some (c.toNat - '0'.toNat)
  else if 'a' ≤ c ∧ c ≤ 'f' then some (c.toNat - 'a'.toNat + 10)
  else if 'A' ≤ c ∧ c ≤ 'F' then some (c.toNat - 'A'.toNat + 10)
  else none

/-- Reads a number of four hexadecimal digits. -/
def codeUnit : List Char → Reading Nat
  | a :: b :: c :: d :: rest =>
      match hexValue? a, hexValue? b, hexValue? c, hexValue? d with
      | some a, some b, some c, some d => .found (((a * 16 + b) * 16 + c) * 16 + d) rest
      | _, _, _, _ => .miss (a :: b :: c :: d :: rest)
  | s => .miss s

/-- Reads a character that is escaped by its number, from behind the letter. -/
def numberedCharacter (s : List Char) : Reading Char :=
  (codeUnit s).andThen fun high rest =>
    if high < 0xD800 ∨ 0xE000 ≤ high then .found (Char.ofNat high) rest
    else
      -- the first half of a pair, with the other half behind it
      match rest with
      | '\\' :: 'u' :: rest =>
          (codeUnit rest).andThen fun low rest =>
            if high < 0xDC00 ∧ 0xDC00 ≤ low ∧ low < 0xE000 then
              .found (Char.ofNat (0x10000 + (high - 0xD800) * 0x400 + (low - 0xDC00))) rest
            else .miss rest
      | _ => .miss rest

/-- The character that a letter behind a backslash stands for. -/
def shortEscape? : Char → Option Char
  | '"' => some '"'
  | '\\' => some '\\'
  | '/' => some '/'
  | 'b' => some '\x08'
  | 'f' => some '\x0c'
  | 'n' => some '\n'
  | 'r' => some '\r'
  | 't' => some '\t'
  | _ => none

/-- Reads one character of a string. -/
def character : List Char → Reading Char
  | [] => .miss []
  | c :: rest =>
      if c = '\\' then
        match rest with
        | [] => .miss []
        | 'u' :: rest => numberedCharacter rest
        | c :: rest =>
            match shortEscape? c with
            | some c => .found c rest
            | none => .miss (c :: rest)
      else if c = '"' ∨ c.toNat < 0x20 then .miss (c :: rest)
      else .found c rest

/-- Reads a string from behind its opening quote. -/
def quoted (s : List Char) : Reading String :=
  (Reading.many character s).andThen fun text rest =>
    match rest with
    | '"' :: rest => .found (String.ofList text) rest
    | rest => .miss rest

/-! ## §4. Numbers. -/

/-- Reads digits, at least one. -/
def digits (s : List Char) : Reading (List Char) :=
  if s.takeWhile Char.isDigit = [] then .miss s
  else .found (s.takeWhile Char.isDigit) (s.dropWhile Char.isDigit)

/-- Reads the digits in front of the point. A zero stands alone. -/
def wholeDigits (s : List Char) : Reading (List Char) :=
  (digits s).andThen fun ds rest =>
    if ds.head? = some '0' ∧ ds ≠ ['0'] then .miss s else .found ds rest

/-- Reads the digits behind the point, if there is one. -/
def fractionDigits : List Char → Reading (List Char)
  | '.' :: rest => digits rest
  | s => .found [] s

/-- Reads a minus, if there is one. -/
def minus : List Char → Bool × List Char
  | '-' :: rest => (true, rest)
  | s => (false, s)

/-- The number with the sign put in front. -/
def signed (negative : Bool) (n : Nat) : Int :=
  if negative then -n else n

/-- Reads an exponent from behind its letter. -/
def exponent : List Char → Reading Int
  | '+' :: rest => (digits rest).map fun ds => Nat.ofDigitChars 10 ds 0
  | s => (digits (minus s).2).map fun ds => signed (minus s).1 (Nat.ofDigitChars 10 ds 0)

/-- Reads an exponent, if there is one. -/
def exponentPart : List Char → Reading Int
  | [] => .found 0 []
  | c :: rest => if c = 'e' ∨ c = 'E' then exponent rest else .found 0 (c :: rest)

/-- Reads a number. -/
def numeral (s : List Char) : Reading Json :=
  (wholeDigits (minus s).2).andThen fun whole rest =>
    (fractionDigits rest).andThen fun fraction rest =>
      (exponentPart rest).map fun e =>
        .number (signed (minus s).1 (Nat.ofDigitChars 10 (whole ++ fraction) 0))
          (e - fraction.length)

/-! ## §5. Values inside values. -/

/-- Reads a word for a constant. -/
def constant (word : String) (value : Json) (s : List Char) : Reading Json :=
  match afterSymbol word s with
  | some rest => .found value rest
  | none => .miss s

section Nesting

variable {α : Type}

/-- Reads a further item and the comma in front of it. -/
def further (item : List Char → Reading α) (s : List Char) : Reading α :=
  (mark ',' s).andThen fun _ rest => item rest

/-- Reads items with commas between them, or none, up to the closing bracket. -/
def upTo (closing : Char) (item : List Char → Reading α) (s : List Char) : Reading (List α) :=
  match mark closing s with
  | .found _ rest => .found [] rest
  | .failed _ =>
      (item s).andThen fun first rest =>
        (Reading.many (further item) rest).andThen fun more rest =>
          (mark closing rest).map fun _ => first :: more

/-- Reads a key and its value. -/
def member (inner : List Char → Reading Json) (s : List Char) : Reading (String × Json) :=
  (mark '"' s).andThen fun _ rest =>
    (quoted rest).andThen fun key rest =>
      (mark ':' rest).andThen fun _ rest => (inner rest).map fun value => (key, value)

/-- Reads a value, where `inner` reads the values inside it. -/
def valueWith (inner : List Char → Reading Json) (s : List Char) : Reading Json :=
  match afterSpace s with
  | [] => .miss []
  | c :: rest =>
      if c = '"' then (quoted rest).map .string
      else if c = '[' then (upTo ']' inner rest).map .array
      else if c = '{' then (upTo '}' (member inner) rest).map .object
      else if c = 't' then constant "true" (.bool true) (c :: rest)
      else if c = 'f' then constant "false" (.bool false) (c :: rest)
      else if c = 'n' then constant "null" .null (c :: rest)
      else numeral (c :: rest)

end Nesting

/-- Reads a value that is nested less deep than `depth`. -/
def value : (depth : Nat) → List Char → Reading Json
  | 0, s => .miss s
  | depth + 1, s => valueWith (value depth) s

/-- The value that a text stands for. No text is nested deeper than it is
long. -/
def decode (text : String) : Option Json :=
  match value (text.length + 1) text.toList with
  | .found json rest => if afterSpace rest = [] then some json else none
  | .failed _ => none

example : decode " [1.5e3, \x7b\"key\": \"\\u00e9\\ud83d\\ude00\"\x7d, null]"
    = some (.array [.number 15 2, .object [("key", .string "é😀")], .null]) := by cbv

/-! ## §6. Strings are read back. -/

theorem hexValue?_hexDigit {n : Nat} (hn : n < 16) : hexValue? (hexDigit n) = some n := by
  have hall : ∀ k : Fin 16, hexValue? (hexDigit k) = some k.val := by decide
  exact hall ⟨n, hn⟩

/-- A character below the space is read back from its number. -/
theorem numberedCharacter_hexDigit {c : Char} (hc : c.toNat < 0x20) (rest : List Char) :
    numberedCharacter ('0' :: '0' :: hexDigit (c.toNat / 16) :: hexDigit (c.toNat % 16) :: rest)
      = .found c rest := by
  have hzero : hexValue? '0' = some 0 := by decide
  have hfirst := hexValue?_hexDigit (n := c.toNat / 16) (by omega)
  have hsecond := hexValue?_hexDigit (n := c.toNat % 16) (by omega)
  have hcode : ((0 * 16 + 0) * 16 + c.toNat / 16) * 16 + c.toNat % 16 = c.toNat := by omega
  rw [numberedCharacter, codeUnit, hzero, hfirst, hsecond]
  show (if _ then _ else _) = _
  rw [hcode, if_pos (.inl (by omega)), Char.ofNat_toNat]

/-- **An escaped character is read back.** -/
theorem character_jsonEscape (c : Char) (rest : List Char) :
    character (jsonEscape c ++ rest) = .found c rest := by
  unfold jsonEscape
  by_cases hquote : c = '"'
  · rw [if_pos hquote, hquote]
    rfl
  rw [if_neg hquote]
  by_cases hback : c = '\\'
  · rw [if_pos hback, hback]
    rfl
  rw [if_neg hback]
  split
  · next h => rw [h]; rfl
  split
  · next h => rw [h]; rfl
  split
  · next h => rw [h]; rfl
  split
  · next h => rw [h]; rfl
  split
  · next h => rw [h]; rfl
  split
  · next hlow => exact numberedCharacter_hexDigit hlow rest
  · next hlow =>
      -- the character stands for itself
      show (if c = '\\' then _ else _) = _
      rw [if_neg hback, if_neg (not_or.2 ⟨hquote, hlow⟩)]
      rfl

theorem length_jsonEscape_pos (c : Char) : 0 < (jsonEscape c).length := by
  unfold jsonEscape
  repeat' split
  all_goals exact Nat.succ_pos _

/-- The characters of a string are read one by one, up to the quote that closes
it. -/
theorem many_character (text rest : List Char) :
    Reading.many character (text.flatMap jsonEscape ++ '"' :: rest)
      = .found text ('"' :: rest) := by
  induction text with
  | nil => exact Reading.many_of_miss rfl
  | cons c text ih =>
      have hlonger : ∀ r : List Char, r.length < (jsonEscape c ++ r).length := by
        intro r
        have hpos := length_jsonEscape_pos c
        rw [List.length_append]
        omega
      rw [List.flatMap_cons, List.append_assoc,
        Reading.many_of_found (character_jsonEscape c _) (hlonger _), ih]
      rfl

/-- **A string is read back**, whatever follows it. -/
theorem quoted_flatMap_jsonEscape (text rest : List Char) :
    quoted (text.flatMap jsonEscape ++ '"' :: rest) = .found (String.ofList text) rest := by
  rw [quoted, many_character]
  rfl

/-! ## §7. Integers are read back. -/

/-- Whether a number ends in front of a text. -/
def EndsNumber (rest : List Char) : Prop :=
  rest.head?.any (fun c => c.isDigit || c == '.' || c == 'e' || c == 'E') = false

/-- Digits are read up to what is no digit. -/
theorem digits_append {ds rest : List Char} (hne : ds ≠ []) (hds : ds.all Char.isDigit = true)
    (hrest : rest.head?.any Char.isDigit = false) : digits (ds ++ rest) = .found ds rest := by
  rw [digits, takeWhile_append_of_all hds hrest, dropWhile_append_of_all hds hrest, if_neg hne]

/-- A number does not start with a zero, unless it is zero. -/
theorem head?_toDigits {n : Nat} (hn : n ≠ 0) : (Nat.toDigits 10 n).head? ≠ some '0' := by
  induction n using Nat.strongRecOn with
  | ind n ih =>
      by_cases hlt : n < 10
      · have hall : ∀ k : Fin 10, k.val ≠ 0 → Nat.digitChar k ≠ '0' := by decide
        rw [Nat.toDigits_of_lt_base hlt]
        exact fun hzero => hall ⟨n, hlt⟩ hn (Option.some.inj hzero)
      · -- the first digit is that of a tenth
        have hfront := ih (n / 10) (by omega) (by omega)
        rw [Nat.toDigits_of_base_le (by decide) (by omega), List.head?_append,
          List.head?_eq_some_head Nat.toDigits_ne_nil]
        rwa [List.head?_eq_some_head Nat.toDigits_ne_nil] at hfront

/-- The digits of a number start with no zero, unless they are nothing else. -/
theorem wholeDigits_toDigits (n : Nat) {rest : List Char}
    (hrest : rest.head?.any Char.isDigit = false) :
    wholeDigits (Nat.toDigits 10 n ++ rest) = .found (Nat.toDigits 10 n) rest := by
  have hds : (Nat.toDigits 10 n).all Char.isDigit = true :=
    List.all_eq_true.2 fun c hc => Nat.isDigit_of_mem_toDigits (by decide) (by decide) hc
  have hzero : ¬((Nat.toDigits 10 n).head? = some '0' ∧ Nat.toDigits 10 n ≠ ['0']) := by
    rintro ⟨hhead, hne⟩
    by_cases hn : n = 0
    · exact hne (hn ▸ Nat.toDigits_zero 10)
    · exact head?_toDigits hn hhead
  rw [wholeDigits, digits_append Nat.toDigits_ne_nil hds hrest]
  exact if_neg hzero

/-- Behind its sign a whole number is read from its digits, with neither
fraction nor exponent. -/
theorem numeral_of_minus {s rest : List Char} {negative : Bool} {n : Nat}
    (hs : minus s = (negative, Nat.toDigits 10 n ++ rest)) (h : EndsNumber rest) :
    numeral s = .found (.number (signed negative n) 0) rest := by
  have hparts : rest.head?.any Char.isDigit = false ∧ fractionDigits rest = .found [] rest
      ∧ exponentPart rest = .found 0 rest := by
    cases rest with
    | nil => exact ⟨rfl, rfl, rfl⟩
    | cons c rest =>
        have hc : (c.isDigit || c == '.' || c == 'e' || c == 'E') = false := h
        simp only [Bool.or_eq_false_iff, beq_eq_false_iff_ne] at hc
        obtain ⟨⟨⟨hdigit, hpoint⟩, hlower⟩, hupper⟩ := hc
        refine ⟨hdigit, ?_, if_neg (not_or.2 ⟨hlower, hupper⟩)⟩
        unfold fractionDigits
        split
        · next heq => exact absurd (List.cons.inj heq).1 hpoint
        · rfl
  obtain ⟨hdigit, hfraction, hexponent⟩ := hparts
  rw [numeral, hs, wholeDigits_toDigits n hdigit, Reading.andThen_found, hfraction,
    Reading.andThen_found, hexponent, List.append_nil, Nat.ofDigitChars_ten_toDigits]
  rfl

/-- A digit is no minus. -/
theorem minus_toDigits (n : Nat) (rest : List Char) :
    minus (Nat.toDigits 10 n ++ rest) = (false, Nat.toDigits 10 n ++ rest) := by
  unfold minus
  split
  · next heq =>
      have hmem : '-' ∈ Nat.toDigits 10 n := by
        cases hds : Nat.toDigits 10 n with
        | nil => exact absurd hds Nat.toDigits_ne_nil
        | cons d ds =>
            rw [hds] at heq
            rw [(List.cons.inj heq).1]
            exact List.mem_cons_self
      exact absurd (Nat.isDigit_of_mem_toDigits (by decide) (by decide) hmem) (by decide)
  · rfl

/-- Whether a number starts with a character. -/
def StartsNumber (c : Char) : Prop :=
  c.isDigit = true ∨ c = '-'

instance (c : Char) : Decidable (StartsNumber c) :=
  inferInstanceAs (Decidable (_ ∨ _))

/-- What starts a number starts nothing else. -/
theorem StartsNumber.ne {c d : Char} (hc : StartsNumber c) (hd : ¬StartsNumber d) : c ≠ d := by
  rintro rfl
  exact hd hc

theorem StartsNumber.isSpace_eq_false {c : Char} (h : StartsNumber c) : isSpace c = false := by
  have hne : ∀ d : Char, ¬StartsNumber d → (c == d) = false := fun d hd => beq_false_of_ne (h.ne hd)
  rw [isSpace, hne ' ' (by decide), hne '\t' (by decide), hne '\n' (by decide),
    hne '\r' (by decide)]
  rfl

/-- What starts as a number is read as one. -/
theorem valueWith_of_startsNumber (inner : List Char → Reading Json) {c : Char} (rest : List Char)
    (h : StartsNumber c) : valueWith inner (c :: rest) = numeral (c :: rest) := by
  rw [valueWith, afterSpace, List.dropWhile_cons_of_neg (by simp [h.isSpace_eq_false])]
  show (if c = '"' then _ else _) = _
  rw [if_neg (h.ne (by decide)), if_neg (h.ne (by decide)), if_neg (h.ne (by decide)),
    if_neg (h.ne (by decide)), if_neg (h.ne (by decide)), if_neg (h.ne (by decide))]

theorem toList_toString_ofNat (m : Nat) : (toString (Int.ofNat m)).toList = Nat.toDigits 10 m :=
  Nat.toList_repr

/-- A negative number is written with a minus in front of its digits. -/
theorem toList_toString_negSucc (m : Nat) :
    (toString (Int.negSucc m)).toList = '-' :: Nat.toDigits 10 (m + 1) := by
  show ("-" ++ Nat.repr (m + 1)).toList = _
  rw [String.toList_append, Nat.toList_repr]
  rfl

/-- A number starts with a minus or with a digit. -/
theorem exists_cons_toString (n : Int) :
    ∃ c tail, (toString n).toList = c :: tail ∧ StartsNumber c := by
  cases n with
  | negSucc m => exact ⟨'-', _, toList_toString_negSucc m, .inr rfl⟩
  | ofNat m =>
      rw [toList_toString_ofNat]
      have hdigit : ∀ c ∈ Nat.toDigits 10 m, c.isDigit = true :=
        fun c hc => Nat.isDigit_of_mem_toDigits (by decide) (by decide) hc
      cases hds : Nat.toDigits 10 m with
      | nil => exact absurd hds Nat.toDigits_ne_nil
      | cons d ds => exact ⟨d, ds, rfl, .inl (hdigit d (hds ▸ List.mem_cons_self))⟩

/-- **An integer is read back** in front of what does not go on with it. -/
theorem numeral_toString (n : Int) {rest : List Char} (h : EndsNumber rest) :
    numeral ((toString n).toList ++ rest) = .found (.number n 0) rest := by
  cases n with
  | ofNat m =>
      rw [toList_toString_ofNat]
      exact numeral_of_minus (minus_toDigits m rest) h
  | negSucc m =>
      have hminus : minus ('-' :: (Nat.toDigits 10 (m + 1) ++ rest))
          = (true, Nat.toDigits 10 (m + 1) ++ rest) := rfl
      rw [toList_toString_negSucc]
      exact numeral_of_minus hminus h

end Json

end SecurityRules
