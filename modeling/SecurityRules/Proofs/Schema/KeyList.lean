/-
  SecurityRules.Proofs.Schema.KeyList
  ────────────────────────────────
  **LISTS IN RULES ARE READ BACK, AND END WHERE THEY END.**

  The admitted values of an enumeration and the keys of a schema stand in rules
  as JSON.  A reader of JSON gets back what was written, whatever is in the
  strings.  The shorthand, which scans such a list for its closing bracket and
  knows nothing of JSON, stops at the same place.

    * `ReadsAs` — a text that is read as one item of an array;
    * `Json.value_jsonList` — an array of values is read back in front of
      anything;
    * `verbatim_bracketList_jsonList` — and is one raw text there.

  Main statement: `Schema.lists_readBack`.
-/
import SecurityRules.Schema.Rules
import SecurityRules.Proofs.Shorthand.Operand
import SecurityRules.Proofs.Text.JsonReading

namespace SecurityRules

open Shorthand (Reading bracketList verbatim)
open SecurityRules.Text

/-! ## §1. Values and JSON. -/

namespace Value

/-- The JSON that a value is written in. -/
def toJson : Value → Json
  | .integer n => .number n 0
  | .text s => .string s

/-- The value that JSON stands for, if it is an integer or a string. -/
def ofJson? : Json → Option Value
  | .number n e => if e = 0 then some (.integer n) else none
  | .string s => some (.text s)
  | .null => none
  | .bool _ => none
  | .array _ => none
  | .object _ => none

/-- A value is what its JSON stands for. -/
theorem ofJson?_toJson (v : Value) : ofJson? v.toJson = some v := by
  cases v <;> rfl

/-- The values in a text, if it is an array of integers and strings. -/
def decodeList (text : String) : Option (List Value) :=
  match Json.decode text with
  | some (.array items) => items.mapM ofJson?
  | _ => none

theorem mapM_ofJson?_toJson (values : List Value) :
    (values.map toJson).mapM ofJson? = some values := by
  induction values with
  | nil => rfl
  | cons v values ih =>
      rw [List.map_cons, List.mapM_cons, ofJson?_toJson, ih]
      rfl

end Value

namespace Json

/-! ## §2. Items of an array. -/

/-- Whether an item ends in front of a text. -/
def EndsItem (rest : List Char) : Prop :=
  ∃ behind, rest = ',' :: behind ∨ rest = ']' :: behind

/-- Whether a text is read as one item of an array. -/
structure ReadsAs {α : Type} (item : List Char → Reading α) (text : List Char) (a : α) :
    Prop where
  start : ∃ c tail, text = c :: tail ∧ isSpace c = false ∧ c ≠ ']'
  read : ∀ rest, EndsItem rest → item (text ++ rest) = .found a rest

section Arrays

variable {α β : Type} {item : List Char → Reading α} {write : β → List Char} {read : β → α}

/-- Texts with a comma in front of each. -/
def commaEach (write : β → List Char) (bs : List β) : List Char :=
  bs.flatMap fun b => ',' :: write b

theorem endsItem_commaEach (bs : List β) (rest : List Char) :
    EndsItem (commaEach write bs ++ ']' :: rest) := by
  cases bs with
  | nil => exact ⟨rest, .inr rfl⟩
  | cons b bs => exact ⟨_, .inl rfl⟩

/-- Items with a comma in front of each are read as a repetition, which ends at
the closing bracket. -/
theorem many_further {bs : List β} (h : ∀ b ∈ bs, ReadsAs item (write b) (read b))
    (rest : List Char) :
    Reading.many (further item) (commaEach write bs ++ ']' :: rest)
      = .found (bs.map read) (']' :: rest) := by
  induction bs with
  | nil => exact Reading.many_of_miss rfl
  | cons b bs ih =>
      obtain ⟨hb, hbs⟩ := List.forall_mem_cons.1 h
      have hitem : further item (',' :: (write b ++ (commaEach write bs ++ ']' :: rest)))
          = .found (read b) (commaEach write bs ++ ']' :: rest) :=
        hb.read _ (endsItem_commaEach bs rest)
      have htext : commaEach write (b :: bs) ++ ']' :: rest
          = ',' :: (write b ++ (commaEach write bs ++ ']' :: rest)) := by
        rw [commaEach, List.flatMap_cons, List.cons_append, List.cons_append, List.append_assoc]
        rfl
      -- a repetition asks for rounds that take something: here at least the comma
      have hshorter : (commaEach write bs ++ ']' :: rest).length
          < (',' :: (write b ++ (commaEach write bs ++ ']' :: rest))).length := by
        rw [List.length_cons, @List.length_append _ (write b)]
        omega
      rw [htext, Reading.many_of_found hitem hshorter, ih hbs]
      rfl

/-- Joined texts are the first, and the others with a comma in front of each. -/
theorem intercalate_eq_commaEach (b : β) (bs : List β) :
    ",".toList.intercalate ((b :: bs).map write) = write b ++ commaEach write bs := by
  induction bs generalizing b with
  | nil => exact List.intercalate_singleton.trans (List.append_nil _).symm
  | cons next bs ih =>
      rw [List.map_cons, List.map_cons, List.intercalate_cons_cons, ← List.map_cons, ih next,
        List.append_assoc]
      rfl

/-- **Items are read up to the closing bracket.** -/
theorem upTo_intercalate {bs : List β} (h : ∀ b ∈ bs, ReadsAs item (write b) (read b))
    (rest : List Char) :
    upTo ']' item (",".toList.intercalate (bs.map write) ++ ']' :: rest)
      = .found (bs.map read) rest := by
  cases bs with
  | nil => rfl
  | cons b bs =>
      obtain ⟨hb, hbs⟩ := List.forall_mem_cons.1 h
      obtain ⟨c, tail, hc, hspace, hclosing⟩ := hb.start
      -- no item starts with a space or a closing bracket, so the array does not end at once
      have hmark : mark ']' (write b ++ (commaEach write bs ++ ']' :: rest))
          = .miss (write b ++ (commaEach write bs ++ ']' :: rest)) := by
        rw [hc, List.cons_append, mark, afterSpace, List.dropWhile_cons_of_neg (by simp [hspace])]
        exact if_neg hclosing
      rw [intercalate_eq_commaEach, List.append_assoc, upTo, hmark]
      show (item _).andThen _ = _
      rw [hb.read _ (endsItem_commaEach bs rest), Reading.andThen_found, many_further hbs]
      rfl

end Arrays

/-! ## §3. Lists of values. -/

theorem endsNumber_of_endsItem {rest : List Char} (h : EndsItem rest) : EndsNumber rest := by
  obtain ⟨behind, rfl | rfl⟩ := h
  · rfl
  · rfl

/-- A value is read back as an item of an array. -/
theorem readsAs_json (depth : Nat) (v : Value) :
    ReadsAs (value (depth + 1)) v.json.toList v.toJson := by
  cases v with
  | text s =>
      have htext : (jsonString s).toList = '"' :: (s.toList.flatMap jsonEscape ++ ['"']) := by
        rw [jsonString, String.toList_ofList, List.cons_append]
      refine ⟨⟨_, _, htext, by decide, by decide⟩, fun rest _ => ?_⟩
      show valueWith (value depth) ((jsonString s).toList ++ rest) = _
      rw [htext, List.cons_append, List.append_assoc]
      show (quoted (s.toList.flatMap jsonEscape ++ '"' :: rest)).map Json.string = _
      rw [quoted_flatMap_jsonEscape, String.ofList_toList]
      rfl
  | integer n =>
      -- a number starts with a digit or a minus, which the reader of values looks at first
      obtain ⟨c, tail, htext, hc⟩ := exists_cons_toString n
      refine ⟨⟨c, tail, htext, hc.isSpace_eq_false, hc.ne (by decide)⟩, fun rest hrest => ?_⟩
      have hread := numeral_toString n (endsNumber_of_endsItem hrest)
      show valueWith (value depth) ((toString n).toList ++ rest) = _
      rw [htext, List.cons_append] at hread ⊢
      rw [valueWith_of_startsNumber _ _ hc]
      exact hread

/-- **An array of values is read back** in front of anything. -/
theorem value_jsonList (depth : Nat) (values : List Value) (rest : List Char) :
    value (depth + 2) ((Value.jsonList values).toList ++ rest)
      = .found (.array (values.map Value.toJson)) rest := by
  have htext : (Value.jsonList values).toList ++ rest
      = '[' :: (",".toList.intercalate (values.map fun v => v.json.toList) ++ ']' :: rest) := by
    rw [Value.jsonList, Shorthand.toList_jsonArray, List.map_map, List.cons_append,
      List.append_assoc]
    rfl
  rw [htext]
  show (upTo ']' (value (depth + 1)) _).map Json.array = _
  rw [upTo_intercalate fun v _ => readsAs_json depth v]
  rfl

/-- A written list of values decodes to these values: reading it does not run
out of depth, and nothing is left over. -/
theorem decode_jsonList (values : List Value) :
    decode (Value.jsonList values) = some (.array (values.map Value.toJson)) := by
  have hread := value_jsonList ((Value.jsonList values).length - 1) values []
  -- the depth that is allowed is the length of the text, and two levels are enough
  have hlength : (Value.jsonList values).length - 1 + 2 = (Value.jsonList values).length + 1 := by
    have hpos : 0 < (Value.jsonList values).length := by
      rw [← String.length_toList, Value.jsonList, Shorthand.toList_jsonArray]
      exact Nat.succ_pos _
    omega
  rw [List.append_nil, hlength] at hread
  rw [decode, hread]
  rfl

end Json

/-! ## §4. Lists in rules. -/

/-- A list is one raw text, whatever follows it. -/
theorem verbatim_bracketList_jsonList (values : List Value) (rest : List Char) :
    verbatim bracketList ((Value.jsonList values).toList ++ rest)
      = .found (Value.jsonList values) rest :=
  Shorthand.verbatim_bracketList_eq_found_iff.2 ⟨rfl, Shorthand.bracketList_jsonList values⟩

/-- Whether a text in a rule stands for a list of values: a reader of JSON gets
back the values, and a scan for brackets ends where the text ends. -/
structure ReadBack (values : List Value) (text : String) : Prop where
  decoded : Value.decodeList text = some values
  closed : ∀ rest, verbatim bracketList (text.toList ++ rest) = .found text rest

/-- Both readers, that of JSON and that of the shorthand, give a written list
back. -/
theorem readBack_jsonList (values : List Value) : ReadBack values (Value.jsonList values) where
  decoded := by
    rw [Value.decodeList, Json.decode_jsonList]
    exact Value.mapM_ofJson?_toJson values
  closed := verbatim_bracketList_jsonList values

/-- Keys are written as the values that they are. -/
theorem readBack_jsonStrings (keys : List String) :
    ReadBack (keys.map Value.text) (jsonStrings keys) := by
  have hlist : Value.jsonList (keys.map Value.text) = jsonStrings keys := by
    rw [Value.jsonList, List.map_map]
    rfl
  exact hlist ▸ readBack_jsonList _

/-- **Lists in rules are read back, and end where they end.** That holds of any
admitted values; and the guards of a schema name, in this way, exactly the keys
of the members that may not be absent, and exactly the keys of all members, in
order. -/
theorem Schema.lists_readBack (values : List Value) (s : Schema) (document : String) :
    ReadBack values (Value.jsonList values)
      ∧ ∃ required declared,
        s.keyGuards document = ⟨.all,
          [.text (keysOf document ++ ".hasAll(" ++ required ++ ")"),
            .text (keysOf document ++ ".hasOnly(" ++ declared ++ ")")]⟩
        ∧ ReadBack (((s.members.filter fun m => !m.isOptional).map Member.name).map Value.text)
          required
        ∧ ReadBack ((s.members.map Member.name).map Value.text) declared :=
  ⟨readBack_jsonList values, jsonStrings s.requiredKeys, jsonStrings s.keys, rfl,
    readBack_jsonStrings _, readBack_jsonStrings _⟩

/-- A key with a quote in it, one that may be left out, and one with a
backslash at its end. -/
def Schema.quotedKeys : Schema :=
  ⟨[.field ⟨"say \"a\"", false, []⟩, .field ⟨"note", true, []⟩,
    .checked "end\\" false (.anyOf [])]⟩

/-- Quotes, backslashes and brackets in values and in keys are read back; of
three keys, the one that may be absent is missing in the first guard. -/
theorem Schema.lists_readBack_quotedKeys :
    ReadBack [.text "]\"", .integer (-1), .text "]\""] "[\"]\\\"\",-1,\"]\\\"\"]"
      ∧ quotedKeys.keyGuards "data" = ⟨.all,
        [.text "data.keys().hasAll([\"say \\\"a\\\"\",\"end\\\\\"])",
          .text "data.keys().hasOnly([\"say \\\"a\\\"\",\"note\",\"end\\\\\"])"]⟩
      ∧ ReadBack [.text "say \"a\"", .text "end\\"] "[\"say \\\"a\\\"\",\"end\\\\\"]"
      ∧ ReadBack [.text "say \"a\"", .text "note", .text "end\\"]
        "[\"say \\\"a\\\"\",\"note\",\"end\\\\\"]" := by
  obtain ⟨hvalues, required, declared, hguards, hrequired, hdeclared⟩ :=
    lists_readBack [.text "]\"", .integer (-1), .text "]\""] quotedKeys "data"
  -- the two texts are what stands between the brackets of the two calls
  have hsame := hguards
  simp only [keyGuards, Junction.mk.injEq, List.cons.injEq, Formula.leaf.injEq,
    String.append_left_inj, String.append_right_inj, true_and, and_true] at hsame
  have hrequiredText : jsonStrings quotedKeys.requiredKeys
      = "[\"say \\\"a\\\"\",\"end\\\\\"]" := by
    decide +kernel
  have hdeclaredText : jsonStrings quotedKeys.keys
      = "[\"say \\\"a\\\"\",\"note\",\"end\\\\\"]" := by
    decide +kernel
  obtain rfl := hrequiredText.symm.trans hsame.1
  obtain rfl := hdeclaredText.symm.trans hsame.2
  exact ⟨hvalues, hguards, hrequired, hdeclared⟩

end SecurityRules
