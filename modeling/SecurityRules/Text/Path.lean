/-
  SecurityRules.Text.Path
  ────────────────────────────────
  **DOTTED PATHS.**

  Places inside a document are named by segments with a dot between.  The
  empty path is the place where paths start, so a segment below it stands
  alone.
-/

namespace SecurityRules.Text

/-- The path of the segment `name` below the path `base`. -/
def joinPath (base name : String) : String :=
  if base = "" then name else base ++ "." ++ name

@[simp] theorem joinPath_empty (name : String) : joinPath "" name = name := rfl

theorem joinPath_of_ne {base : String} (h : base ≠ "") (name : String) :
    joinPath base name = base ++ "." ++ name := by
  simp [joinPath, h]

/-- What follows the last dot of a path; the whole path if it has none. -/
def lastSegment : List Char → List Char
  | [] => []
  | c :: path => if '.' ∈ c :: path then lastSegment path else c :: path

end SecurityRules.Text
