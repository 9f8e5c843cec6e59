/-
  SecurityRules.Text.Character
  ────────────────────────────────
  **CHARACTER CLASSES.**

  Two kinds of class meet in this library and must not be mixed up:

    * *blank* text, which says nothing and is dropped from rules, is judged
      by the Unicode property White_Space (`isBlank`);
    * the predicate shorthand knows ASCII only: its layout (`isLayoutChar`),
      its names (`isNameStart`, `isNameChar`) and its words (`isWordChar`).
-/

namespace SecurityRules.Text

/-! ## §1. Blank text. -/

/-- The characters with the Unicode property White_Space. -/
def isBlankChar (c : Char) : Bool :=
  let n := c.toNat
  (0x09 ≤ n && n ≤ 0x0D) || n == 0x20 || n == 0x85 || n == 0xA0 || n == 0x1680
    || (0x2000 ≤ n && n ≤ 0x200A) || n == 0x2028 || n == 0x2029 || n == 0x202F
    || n == 0x205F || n == 0x3000

/-- A text is blank when every character of it is white space; the empty text
is blank. -/
def isBlank (text : String) : Bool :=
  text.toList.all isBlankChar

theorem isBlank_append (s t : String) : isBlank (s ++ t) = (isBlank s && isBlank t) := by
  rw [isBlank, String.toList_append, List.all_append]
  rfl

/-! ## §2. The alphabet of the shorthand. -/

/-- Space, tab, line feed, form feed and carriage return separate the tokens
of the shorthand. The vertical tab does not. -/
def isLayoutChar (c : Char) : Bool :=
  c == ' ' || c == '\t' || c == '\n' || c == '\x0c' || c == '\r'

/-- A name starts with an ASCII letter or an underscore. -/
def isNameStart (c : Char) : Bool :=
  c.isAlpha || c == '_'

/-- A name goes on with ASCII letters, digits and underscores. -/
def isNameChar (c : Char) : Bool :=
  c.isAlphanum || c == '_'

/-- A word is made of the characters of names and of dots, so it covers
identifiers, dotted paths and numbers. -/
def isWordChar (c : Char) : Bool :=
  isNameChar c || c == '.'

theorem isNameChar_of_isNameStart {c : Char} (h : isNameStart c = true) :
    isNameChar c = true := by
  simp only [isNameStart, isNameChar, Char.isAlphanum, Bool.or_eq_true] at h ⊢
  rcases h with h | h
  · exact .inl (.inl h)
  · exact .inr h

theorem isWordChar_of_isNameChar {c : Char} (h : isNameChar c = true) :
    isWordChar c = true := by
  simp [isWordChar, h]

/-- No character of a word is white space. -/
theorem isBlankChar_of_isWordChar {c : Char} (h : isWordChar c = true) :
    isBlankChar c = false := by
  have hrange : c.toNat = 46 ∨ 48 ≤ c.toNat ∧ c.toNat ≤ 122 := by
    delta isWordChar isNameChar Char.isAlphanum Char.isAlpha Char.isUpper Char.isLower
      Char.isDigit at h
    simp only [Bool.or_eq_true, Bool.and_eq_true, decide_eq_true_eq, beq_iff_eq,
      UInt32.le_iff_toNat_le] at h
    have hval : c.val.toNat = c.toNat := rfl
    rcases h with (((h | h) | h) | rfl) | rfl
    · refine .inr ⟨?_, ?_⟩ <;> simp at h <;> omega
    · refine .inr ⟨?_, ?_⟩ <;> simp at h <;> omega
    · refine .inr ⟨?_, ?_⟩ <;> simp at h <;> omega
    · exact .inr (by decide)
    · exact .inl rfl
  cases hb : isBlankChar c with
  | false => rfl
  | true =>
      simp only [isBlankChar, Bool.or_eq_true, Bool.and_eq_true, decide_eq_true_eq,
        beq_iff_eq] at hb
      omega

/-! ## §3. Sizes. -/

/-- The number of bytes that `text` takes in UTF-8. -/
def byteLength : List Char → Nat
  | [] => 0
  | c :: text => c.utf8Size + byteLength text

@[simp] theorem byteLength_nil : byteLength [] = 0 := rfl

@[simp] theorem byteLength_cons (c : Char) (text : List Char) :
    byteLength (c :: text) = c.utf8Size + byteLength text := rfl

@[simp] theorem byteLength_append (s t : List Char) :
    byteLength (s ++ t) = byteLength s + byteLength t := by
  induction s with
  | nil => exact (Nat.zero_add _).symm
  | cons c s ih => rw [List.cons_append, byteLength_cons, byteLength_cons, ih, Nat.add_assoc]

/-- The size of a text is the sum of the sizes of its characters. -/
theorem utf8ByteSize_ofList (text : List Char) :
    (String.ofList text).utf8ByteSize = byteLength text := by
  induction text with
  | nil => simp
  | cons c text ih =>
      have hsplit : String.ofList (c :: text) = String.ofList [c] ++ String.ofList text := by
        rw [← String.ofList_append]
        rfl
      have hone : (String.ofList [c]).utf8ByteSize = c.utf8Size := by
        rw [← String.singleton_eq_ofList, String.utf8ByteSize_singleton]
      rw [hsplit, String.utf8ByteSize_append, hone, ih, byteLength_cons]

@[simp] theorem byteLength_toList (text : String) :
    byteLength text.toList = text.utf8ByteSize := by
  rw [← utf8ByteSize_ofList, String.ofList_toList]

end SecurityRules.Text
