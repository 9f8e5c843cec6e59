/-
  SecurityRules.Text.Listing
  ────────────────────────────────
  **INDENTED LINES.**

  A listing is a list of lines; a line is a text or a block of further lines,
  which stands one level deeper.  A block has no text of its own, so an empty
  one leaves no trace.
-/

namespace SecurityRules

/-- A text, or a block of lines one level deeper. -/
inductive Line where
  | text (content : String)
  | block (lines : List Line)

/-- The indentation of one level. -/
def indentUnit : String := "  "

/-- The indentation of a number of levels. -/
def indent : Nat → String
  | 0 => ""
  | depth + 1 => indentUnit ++ indent depth

mutual

/-- The texts of a line that stands at the given depth. -/
def Line.layOut (depth : Nat) : Line → List String
  | .text content => [indent depth ++ content]
  | .block lines => Line.layOutAll (depth + 1) lines

/-- The texts of lines that stand at the given depth, in order. -/
def Line.layOutAll (depth : Nat) : List Line → List String
  | [] => []
  | line :: lines => Line.layOut depth line ++ Line.layOutAll depth lines

end

/-- The texts of a listing. -/
def listing (lines : List Line) : List String :=
  Line.layOutAll 0 lines

/-- A listing as one text, without a line break at its end. -/
def listingText (lines : List Line) : String :=
  "\n".intercalate (listing lines)

theorem Line.layOutAll_append (depth : Nat) (lines more : List Line) :
    Line.layOutAll depth (lines ++ more)
      = Line.layOutAll depth lines ++ Line.layOutAll depth more := by
  induction lines with
  | nil => rfl
  | cons line lines ih =>
      rw [List.cons_append, Line.layOutAll, ih, Line.layOutAll, List.append_assoc]

end SecurityRules
