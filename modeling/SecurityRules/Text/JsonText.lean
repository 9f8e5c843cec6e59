/-
  SecurityRules.Text.JsonText
  ────────────────────────────────
  **STRINGS AND LISTS IN JSON.**

  Lists of keys and of admitted values stand in rules as compact JSON.  A
  string escapes the quote, the backslash and the control characters below the
  space: five of these by a letter, the others by four hexadecimal digits in
  lower case.  Every other character stands for itself.
-/

namespace SecurityRules.Text

/-- The digit for a number below 16. -/
def hexDigit (n : Nat) : Char :=
  Nat.digitChar n

/-- How a character stands in a JSON string. -/
def jsonEscape (c : Char) : List Char :=
  if c = '"' then ['\\', '"']
  else if c = '\\' then ['\\', '\\']
  else if c = '\x08' then ['\\', 'b']
  else if c = '\x0c' then ['\\', 'f']
  else if c = '\n' then ['\\', 'n']
  else if c = '\r' then ['\\', 'r']
  else if c = '\t' then ['\\', 't']
  else if c.toNat < 0x20 then
    ['\\', 'u', '0', '0', hexDigit (c.toNat / 16), hexDigit (c.toNat % 16)]
  else [c]

/-- A text as a JSON string. -/
def jsonString (text : String) : String :=
  String.ofList ('"' :: text.toList.flatMap jsonEscape ++ ['"'])

/-- Values, already in JSON, as a JSON array. -/
def jsonArray (values : List String) : String :=
  "[" ++ ",".intercalate values ++ "]"

/-- Texts as a JSON array of strings. -/
def jsonStrings (texts : List String) : String :=
  jsonArray (texts.map jsonString)

end SecurityRules.Text
