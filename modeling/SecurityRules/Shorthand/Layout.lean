/-
  SecurityRules.Shorthand.Layout
  ────────────────────────────────
  **LAYOUT BETWEEN TOKENS.**

  White space and comments may stand between any two tokens.  A comment runs
  from `#` to the next line break or to the end of the text.  A carriage
  return that no line feed follows ends no line, so a `#` whose line would end
  in one starts no comment at all: the layout stops in front of it.

  Main statement: skipping layout leaves an end of the text, and skipping
  twice is skipping once (`afterLayout_afterLayout`).
-/
import SecurityRules.Text.Character

namespace SecurityRules.Shorthand

open SecurityRules.Text

/-- Whether the line that starts here ends properly: at a line feed, at a
carriage return with its line feed, or with the text. -/
def lineEnds : List Char → Bool
  | [] => true
  | '\n' :: _ => true
  | '\r' :: rest => rest.head? == some '\n'
  | _ :: rest => lineEnds rest

/-- Skips layout, from within a comment or from outside. The line break that
ends a comment is itself layout. -/
def skipLayout (inComment : Bool) : List Char → List Char
  | [] => []
  | c :: rest =>
      if inComment then
        -- a carriage return here comes with its line feed: see `lineEnds`
        skipLayout (c != '\n' && c != '\r') rest
      else if isLayoutChar c then
        skipLayout false rest
      else if c == '#' && lineEnds rest then
        skipLayout true rest
      else
        c :: rest

/-- The text behind any white space and comments in front of it. -/
def afterLayout (s : List Char) : List Char :=
  skipLayout false s

theorem skipLayout_suffix (inComment : Bool) (s : List Char) :
    skipLayout inComment s <:+ s := by
  induction s generalizing inComment with
  | nil => exact List.suffix_refl _
  | cons c rest ih =>
      unfold skipLayout
      split
      · exact (ih _).trans (List.suffix_cons _ _)
      · split
        · exact (ih _).trans (List.suffix_cons _ _)
        · split
          · exact (ih _).trans (List.suffix_cons _ _)
          · exact List.suffix_refl _

theorem afterLayout_suffix (s : List Char) : afterLayout s <:+ s :=
  skipLayout_suffix false s

theorem length_afterLayout_le (s : List Char) : (afterLayout s).length ≤ s.length :=
  (afterLayout_suffix s).length_le

theorem afterLayout_skipLayout (inComment : Bool) (s : List Char) :
    afterLayout (skipLayout inComment s) = skipLayout inComment s := by
  induction s generalizing inComment with
  | nil => rfl
  | cons c rest ih =>
      unfold skipLayout
      split
      · exact ih _
      · split
        · exact ih _
        · split
          · exact ih _
          · next h1 h2 h3 =>
              show skipLayout false (c :: rest) = c :: rest
              rw [skipLayout]
              simp_all

/-- No layout is left behind layout. -/
theorem afterLayout_afterLayout (s : List Char) :
    afterLayout (afterLayout s) = afterLayout s :=
  afterLayout_skipLayout false s

end SecurityRules.Shorthand
