/-
  SecurityRules.Ruleset
  ────────────────────────────────
  **WHOLE RULESETS.**

  A ruleset wraps the blocks of its collections in the block for a database,
  which is every database unless one is named, and that in the service.
-/
import SecurityRules.Collection.Block

namespace SecurityRules

/-- The rules for a database. -/
structure Ruleset where
  database : String
  collections : List Collection

/-- The variable that matches every database. -/
def anyDatabase : String := "\x7bdatabase\x7d"

/-- The line that names the version of the rules language. -/
def versionLine : String := "rules_version = '2';"

/-- The line that opens the block of the service. -/
def serviceLine : String := "service cloud.firestore \x7b"

namespace Ruleset

/-- No collections, in any database. -/
def empty : Ruleset := ⟨anyDatabase, []⟩

/-- The path of the documents of the database. -/
def path (r : Ruleset) : String :=
  "/databases/" ++ r.database ++ "/documents"

/-! ## §1. Steps. -/

/-- One step in building a ruleset. -/
inductive Step where
  | database (id : String)
  | add (collection : Collection)

/-- Takes one step. -/
def apply (r : Ruleset) : Step → Ruleset
  | .database id => { r with database := id }
  | .add c => { r with collections := r.collections ++ [c] }

/-- Takes steps in order. -/
def run (r : Ruleset) (steps : List Step) : Ruleset :=
  steps.foldl apply r

/-! ## §2. Text. -/

/-- The blocks of some collections, each a block of its own. -/
def collectionBlocks : List Collection → Except Fault (List Line)
  | [] => .ok []
  | c :: collections => do
      let first ← c.block
      let rest ← collectionBlocks collections
      return .block first :: rest

/-- The lines of a ruleset. -/
def lines (r : Ruleset) : Except Fault (List Line) := do
  let blocks ← collectionBlocks r.collections
  return [.text versionLine, .text serviceLine,
    .block (.text (matchLine r.path) :: blocks ++ [.text closingLine]), .text closingLine]

/-- The text of a ruleset. -/
def render (r : Ruleset) : Except Fault String :=
  r.lines.map listingText

end Ruleset

end SecurityRules
