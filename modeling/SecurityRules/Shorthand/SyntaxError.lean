/-
  SecurityRules.Shorthand.SyntaxError
  ────────────────────────────────
  **WHAT IS WRONG WITH A TEXT.**

  A syntax error keeps the text on both sides of the place where reading
  stopped, and the notes of the readers that stopped there.  Its message shows
  an excerpt with a caret under that place, and says what was expected.

    * A text of one line is shown whole, and the caret is indented by the
      offset in bytes.
    * Of a longer text the line at fault is shown with its number.  The column
      counts characters, except in front of a character of several bytes,
      where it counts the bytes of the line so far.
    * At the end of a text the last character is what the message points
      behind, so a text that ends in a line feed is shown by the line which
      that line feed ends.
-/
import SecurityRules.Text.Character
import SecurityRules.Shorthand.Reading

namespace SecurityRules

open SecurityRules.Text

/-! ## §1. Notes in words. -/

namespace Shorthand.Note

/-- What is wrong with a text, where a note says so. -/
def complaint : Note → Option String
  | .referenceInRawText => some "field reference inside a raw expression"
  | _ => none

/-- What was expected, where a note says so. -/
def expectation : Note → Option String
  | .referenceInRawText => none
  | .path => some "attribute"
  | .operand => some "operand"
  | .expression => some "expression"
  | .predicate => some "predicate"

/-- Notes in words: the innermost complaint, and all that was expected, from
the innermost outwards. -/
def describe (notes : List Note) : String :=
  let complaints := (notes.findSome? complaint).toList.map fun text => "invalid " ++ text
  let expectations := notes.filterMap expectation
  "\n".intercalate <| complaints ++
    if expectations.isEmpty then [] else ["expected " ++ ", ".intercalate expectations]

end Shorthand.Note

/-! ## §2. Places in a text. -/

/-- A place in a text of several lines. Lines and columns count from zero. -/
structure Place where
  line : Nat
  column : Nat
  /-- The whole line, without the line feed that ends it. -/
  content : List Char
  deriving DecidableEq, Repr

namespace Place

/-- What of a text comes behind its last line feed. -/
def lastLine (text : List Char) : List Char :=
  (text.reverse.takeWhile (· != '\n')).reverse

/-- What of a text comes in front of its first line feed. -/
def firstLine (text : List Char) : List Char :=
  text.takeWhile (· != '\n')

/-- The place between `before` and `rest`. -/
def between (before rest : List Char) : Place :=
  match rest with
  | c :: _ =>
      let start := lastLine before
      { line := before.count '\n'
        column := if c.utf8Size = 1 then start.length else byteLength start
        content := start ++ firstLine rest }
  | [] =>
      -- point behind the last character, on the line that it belongs to
      let front := before.dropLast
      let start := lastLine front
      { line := front.count '\n'
        column := start.length + 1
        content := start ++ firstLine (before.drop front.length) }

end Place

/-! ## §3. Syntax errors. -/

/-- Why a text is not a predicate. -/
structure SyntaxError where
  /-- The text in front of the place where reading stopped. -/
  before : List Char
  /-- The text behind it. -/
  rest : List Char
  /-- Remarks, the innermost first. -/
  notes : List Shorthand.Note
  deriving DecidableEq, Repr

namespace SyntaxError

/-- The text that was read. -/
def text (e : SyntaxError) : List Char :=
  e.before ++ e.rest

/-- Where reading stopped, in bytes from the start of the text. -/
def offset (e : SyntaxError) : Nat :=
  byteLength e.before

/-- A caret behind `n` spaces, as a line. -/
def caretLine (n : Nat) : List Char :=
  List.replicate n ' ' ++ ['^', '\n']

/-- The part of the text that the message shows. -/
def excerpt (e : SyntaxError) : List Char :=
  if '\n' ∈ e.text then
    let place := Place.between e.before e.rest
    let number := (toString (place.line + 1)).toList
    let gutter := List.replicate number.length ' '
    "parse error at line ".toList ++ number ++ ", column ".toList
      ++ (toString (place.column + 1)).toList ++ ['\n']
      ++ gutter ++ " |\n".toList
      ++ number ++ " | ".toList ++ place.content ++ ['\n']
      ++ gutter ++ " | ".toList ++ caretLine place.column
  else
    e.text ++ '\n' :: caretLine e.offset

/-- The wording of a syntax error. -/
def message (e : SyntaxError) : String :=
  "parse error: " ++ String.ofList e.excerpt ++ Shorthand.Note.describe e.notes

end SyntaxError

end SecurityRules
