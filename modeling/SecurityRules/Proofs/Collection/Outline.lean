/-
  SecurityRules.Proofs.Collection.Outline
  ────────────────────────────────
  **WHAT THE BLOCK OF A COLLECTION TELLS.**

  An outline keeps of a collection what can be read in its block: the path, the
  texts of the schema and of the guards, and the outlines of its children.  It is
  put together before any line is, so the lines of a block can be studied as a
  function of a tree that cannot fail.

    * `Collection.block_eq_ok` — a block is there when an outline is, and holds
      the lines of the outline;
    * `Outline.head_eq` — the rows that the print spells are those that are
      written;
    * `Outline.layOut_lines` — laid out, the lines of a block are the print of its
      outline at its level;
    * `Outline.print_add` — a deeper level only adds spaces in front;
    * `Outline.printAll_append_inj` — outlines can be told from their print, in
      front of whatever closes the block around them.
-/
import SecurityRules.Ruleset
import SecurityRules.Proofs.Schema.Building

namespace SecurityRules

/-! ## §1. Outlines. -/

/-- What is written about a collection, with what is written about its
children. -/
structure Outline where
  path : String
  /-- What its schema demands. -/
  check : String
  /-- Where an operation is allowed. -/
  guard : Operation → String
  children : List Outline

namespace Collection

/-- The texts of all guards. -/
def guardTexts (c : Collection) : Except Fault (Operation → String) := do
  let get ← c.guardText .get
  let create ← c.guardText .create
  let update ← c.guardText .update
  let list ← c.guardText .list
  let delete ← c.guardText .delete
  return fun
    | .get => get
    | .create => create
    | .update => update
    | .list => list
    | .delete => delete

mutual

/-- The outline of a collection, if all its texts are there. -/
def outline : Collection → Except Fault Outline
  | ⟨name, documentId, schema, access, preventsLockout, children⟩ => do
      let c : Collection := ⟨name, documentId, schema, access, preventsLockout, children⟩
      let check ← c.schemaText
      let guard ← c.guardTexts
      let nested ← outlineAll children
      return ⟨c.relativePath, check, guard, nested⟩

/-- The outlines of some collections, in order. -/
def outlineAll : List Collection → Except Fault (List Outline)
  | [] => .ok []
  | c :: collections => do
      let first ← outline c
      let rest ← outlineAll collections
      return first :: rest

end

/-- The guards are there where each of them is. -/
theorem guardTexts_eq_ok {c : Collection} {guard : Operation → String} :
    c.guardTexts = .ok guard ↔ ∀ op, c.guardText op = .ok (guard op) := by
  simp only [guardTexts, Except.bind_eq_ok, Except.pure_eq_ok]
  constructor
  · rintro ⟨get, hget, create, hcreate, update, hupdate, list, hlist, delete, hdelete, rfl⟩ op
    cases op <;> assumption
  · intro h
    refine ⟨_, h .get, _, h .create, _, h .update, _, h .list, _, h .delete, ?_⟩
    funext op
    cases op <;> rfl

/-- An outline is there where all texts are, of the collection and of those
below it, and consists of them. -/
theorem outline_eq_ok {c : Collection} {o : Outline} :
    c.outline = .ok o ↔
      ∃ check guard nested, c.schemaText = .ok check ∧ (∀ op, c.guardText op = .ok (guard op))
        ∧ outlineAll c.children = .ok nested ∧ o = ⟨c.relativePath, check, guard, nested⟩ := by
  obtain ⟨name, documentId, schema, access, preventsLockout, children⟩ := c
  rw [outline]
  simp only [Except.bind_eq_ok, Except.pure_eq_ok, guardTexts_eq_ok]
  constructor
  · rintro ⟨check, hcheck, guard, hguard, nested, hnested, rfl⟩
    exact ⟨check, guard, nested, hcheck, hguard, hnested, rfl⟩
  · rintro ⟨check, guard, nested, hcheck, hguard, hnested, rfl⟩
    exact ⟨check, hcheck, guard, hguard, nested, hnested, rfl⟩

theorem outlineAll_cons_eq_ok {c : Collection} {collections : List Collection}
    {forest : List Outline} :
    outlineAll (c :: collections) = .ok forest ↔
      ∃ first rest, c.outline = .ok first ∧ outlineAll collections = .ok rest
        ∧ first :: rest = forest := by
  rw [outlineAll]
  exact Except.bind_bind_eq_ok

end Collection

/-! ## §2. The lines of an outline. -/

namespace Outline

mutual

/-- The block of an outline. -/
def lines : Outline → List Line
  | ⟨path, check, guard, children⟩ =>
      [.text (matchLine path),
        .block (.text (schemaLine check)
          :: Operation.every.map (fun op => .text (allowLine op (guard op)))
          ++ linesAll children),
        .text closingLine]

/-- The blocks of some outlines, one behind the other. -/
def linesAll : List Outline → List Line
  | [] => []
  | o :: outlines => lines o ++ linesAll outlines

end

end Outline

namespace Collection

theorem exists_guardText_of_allowLines {c : Collection} {ops : List Operation}
    {lines : List Line} (h : c.allowLines ops = .ok lines) :
    ∀ op ∈ ops, ∃ text, c.guardText op = .ok text := by
  induction ops generalizing lines with
  | nil => exact List.forall_mem_nil _
  | cons op ops ih =>
      rw [allowLines, Except.bind_bind_eq_ok] at h
      obtain ⟨text, rest, htext, hrest, -⟩ := h
      exact List.forall_mem_cons.2 ⟨⟨text, htext⟩, ih hrest⟩

/-- The rows for operations are there where the guards are. -/
theorem allowLines_of_guardText {c : Collection} {guard : Operation → String}
    (h : ∀ op, c.guardText op = .ok (guard op)) (ops : List Operation) :
    c.allowLines ops = .ok (ops.map fun op => .text (allowLine op (guard op))) := by
  induction ops with
  | nil => rfl
  | cons op ops ih =>
      rw [allowLines, h op, ih]
      rfl

/-- What a collection consists of by itself is one row for its schema and one
for each operation. -/
theorem ownLines_eq_ok {c : Collection} {lines : List Line} :
    c.ownLines = .ok lines ↔
      ∃ check, ∃ guard : Operation → String,
        c.schemaText = .ok check ∧ (∀ op, c.guardText op = .ok (guard op))
        ∧ .text (schemaLine check)
            :: Operation.every.map (fun op => .text (allowLine op (guard op))) = lines := by
  rw [ownLines, Except.bind_bind_eq_ok]
  constructor
  · rintro ⟨check, rest, hcheck, hrest, rfl⟩
    have htext : ∀ op, ∃ text, c.guardText op = .ok text :=
      fun op => exists_guardText_of_allowLines hrest op op.mem_every
    obtain ⟨guard, hguard⟩ := Classical.skolem.1 htext
    rw [allowLines_of_guardText hguard] at hrest
    exact ⟨check, guard, hcheck, hguard, congrArg _ (Except.ok.inj hrest)⟩
  · rintro ⟨check, guard, hcheck, hguard, rfl⟩
    exact ⟨check, _, hcheck, allowLines_of_guardText hguard _, rfl⟩

mutual

/-- **A block is there when an outline is**, and holds the lines of the
outline. -/
theorem block_eq_ok {c : Collection} {lines : List Line} :
    c.block = .ok lines ↔ ∃ o, c.outline = .ok o ∧ o.lines = lines := by
  match c with
  | ⟨name, documentId, schema, access, preventsLockout, children⟩ =>
      have hnested := @blocks_eq_ok children
      rw [block]
      show Except.mapError (Fault.inCollection _) _ = _ ↔ _
      rw [Except.mapError_eq_ok, Except.bind_bind_eq_ok]
      constructor
      · rintro ⟨own, nested, hown, hblocks, rfl⟩
        obtain ⟨check, guard, hcheck, hguard, rfl⟩ := ownLines_eq_ok.1 hown
        obtain ⟨forest, hforest, rfl⟩ := hnested.1 hblocks
        exact ⟨_, outline_eq_ok.2 ⟨check, guard, forest, hcheck, hguard, hforest, rfl⟩, rfl⟩
      · rintro ⟨o, ho, rfl⟩
        obtain ⟨check, guard, forest, hcheck, hguard, hforest, rfl⟩ := outline_eq_ok.1 ho
        exact ⟨_, _, ownLines_eq_ok.2 ⟨check, guard, hcheck, hguard, rfl⟩,
          hnested.2 ⟨forest, hforest, rfl⟩, rfl⟩

/-- The same holds of collections side by side. -/
theorem blocks_eq_ok {collections : List Collection} {lines : List Line} :
    blocks collections = .ok lines ↔
      ∃ forest, outlineAll collections = .ok forest ∧ Outline.linesAll forest = lines := by
  match collections with
  | [] => simp [blocks, outlineAll, Outline.linesAll]
  | c :: collections =>
      rw [blocks, Except.bind_bind_eq_ok]
      simp only [outlineAll_cons_eq_ok]
      constructor
      · rintro ⟨first, rest, hfirst, hrest, rfl⟩
        obtain ⟨o, ho, rfl⟩ := block_eq_ok.1 hfirst
        obtain ⟨forest, hforest, rfl⟩ := blocks_eq_ok.1 hrest
        exact ⟨o :: forest, ⟨o, forest, ho, hforest, rfl⟩, rfl⟩
      · rintro ⟨_, ⟨o, forest, ho, hforest, rfl⟩, rfl⟩
        exact ⟨_, _, block_eq_ok.2 ⟨o, ho, rfl⟩, blocks_eq_ok.2 ⟨forest, hforest, rfl⟩, rfl⟩

end

end Collection

/-! ## §3. The print of an outline. -/

/-- A number of spaces. -/
def spaces (n : Nat) : String :=
  String.ofList (List.replicate n ' ')

theorem spaces_add (m n : Nat) : spaces (m + n) = spaces m ++ spaces n := by
  unfold spaces
  rw [← String.ofList_append, List.replicate_append_replicate]

/-- One level is two spaces. -/
theorem indent_eq_spaces (depth : Nat) : indent depth = spaces (2 * depth) := by
  induction depth with
  | zero => rfl
  | succ depth ih =>
      have hunit : indentUnit = spaces 2 := rfl
      rw [indent, ih, hunit, ← spaces_add, Nat.mul_succ, Nat.add_comm]

namespace Outline

/-- The rows of a collection in front of those of its children, where there are
`level` collections around it. They are spelled out here, and `head_eq` says that
they are the ones that are written. -/
def head (level : Nat) (o : Outline) : List String :=
  [spaces (2 * (level + 2)) ++ ("match " ++ o.path ++ " \x7b"),
    spaces (2 * (level + 3))
      ++ ("function isValidSchema(data) \x7b return " ++ o.check ++ "; \x7d"),
    spaces (2 * (level + 3)) ++ ("allow get: if " ++ o.guard .get ++ ";"),
    spaces (2 * (level + 3)) ++ ("allow create: if " ++ o.guard .create ++ ";"),
    spaces (2 * (level + 3)) ++ ("allow update: if " ++ o.guard .update ++ ";"),
    spaces (2 * (level + 3)) ++ ("allow list: if " ++ o.guard .list ++ ";"),
    spaces (2 * (level + 3)) ++ ("allow delete: if " ++ o.guard .delete ++ ";")]

mutual

/-- What a collection contributes to a listing: its own rows, what its children
contribute one level deeper, and the row that closes its block. -/
def print (level : Nat) : Outline → List String
  | ⟨path, check, guard, children⟩ =>
      head level ⟨path, check, guard, children⟩ ++ printAll (level + 1) children
        ++ [spaces (2 * (level + 2)) ++ "\x7d"]

/-- What some collections side by side contribute, in order. -/
def printAll (level : Nat) : List Outline → List String
  | [] => []
  | o :: outlines => print level o ++ printAll level outlines

end

@[simp] theorem length_head (level : Nat) (o : Outline) : (o.head level).length = 7 := rfl

/-- The rows of a collection, those of its children, and the one that closes its
block. -/
theorem print_eq (level : Nat) (o : Outline) :
    o.print level = o.head level
      ++ (printAll (level + 1) o.children ++ [spaces (2 * (level + 2)) ++ "\x7d"]) := by
  obtain ⟨path, check, guard, children⟩ := o
  rw [print, List.append_assoc]

/-- The rows that are spelled out are the lines that a block is made of. -/
theorem head_eq (level : Nat) (o : Outline) :
    o.head level = (spaces (2 * (level + 2)) ++ matchLine o.path)
      :: (spaces (2 * (level + 3)) ++ schemaLine o.check)
      :: Operation.every.map fun op => spaces (2 * (level + 3)) ++ allowLine op (o.guard op) := by
  rfl

/-- Texts at one depth are indented alike. -/
theorem layOutAll_map_text {α : Type} (depth : Nat) (text : α → String) (entries : List α) :
    Line.layOutAll depth (entries.map fun a => .text (text a))
      = entries.map fun a => spaces (2 * depth) ++ text a := by
  rw [← indent_eq_spaces]
  induction entries with
  | nil => rfl
  | cons a entries ih =>
      rw [List.map_cons, Line.layOutAll, ih]
      rfl

mutual

/-- **Laid out, the lines of an outline are its print.** The outermost
collections stand inside the blocks of the service and of the database. -/
theorem layOut_lines (level : Nat) (o : Outline) :
    Line.layOutAll (level + 2) o.lines = o.print level := by
  match o with
  | ⟨path, check, guard, children⟩ =>
      have hnested := layOut_linesAll (level + 1) children
      have hallow := layOutAll_map_text (level + 3) (fun op => allowLine op (guard op))
        Operation.every
      rw [lines, print, head_eq]
      simp only [Line.layOutAll, Line.layOut, List.cons_append, List.append_assoc, List.nil_append,
        Line.layOutAll_append, indent_eq_spaces]
      rw [hnested, hallow]
      rfl

theorem layOut_linesAll (level : Nat) (outlines : List Outline) :
    Line.layOutAll (level + 2) (linesAll outlines) = printAll level outlines := by
  match outlines with
  | [] => rfl
  | o :: outlines =>
      rw [linesAll, Line.layOutAll_append, layOut_lines level o, layOut_linesAll level outlines,
        printAll]

end

/-- A row that starts with the indentation of a level starts, `k` levels deeper,
with `2 * k` more spaces. -/
theorem spaces_deeper (level k n : Nat) (text : String) :
    spaces (2 * (level + k + n)) ++ text
      = spaces (2 * k) ++ (spaces (2 * (level + n)) ++ text) := by
  rw [← String.append_assoc, ← spaces_add]
  congr 2
  omega

/-- So it is for the rows of a collection. -/
theorem head_add (level k : Nat) (o : Outline) :
    o.head (level + k) = (o.head level).map (spaces (2 * k) ++ ·) := by
  simp only [head, List.map_cons, List.map_nil, spaces_deeper]

mutual

/-- **A deeper level only adds spaces in front.** -/
theorem print_add (level k : Nat) (o : Outline) :
    o.print (level + k) = (o.print level).map (spaces (2 * k) ++ ·) := by
  match o with
  | ⟨path, check, guard, children⟩ =>
      have hnested := printAll_add (level + 1) k children
      rw [Nat.add_right_comm] at hnested
      rw [print, print, hnested, head_add, spaces_deeper]
      simp only [List.map_append, List.map_cons, List.map_nil]

theorem printAll_add (level k : Nat) (outlines : List Outline) :
    printAll (level + k) outlines = (printAll level outlines).map (spaces (2 * k) ++ ·) := by
  match outlines with
  | [] => rfl
  | o :: outlines =>
      rw [printAll, printAll, print_add level k o, printAll_add level k outlines, List.map_append]

end

/-! ## §4. Reading an outline back. -/

/-- A row that opens a block is none that closes one, whatever the
indentation. -/
theorem opening_ne_closing (n m : Nat) (path : String) :
    spaces n ++ ("match " ++ path ++ " \x7b") ≠ spaces m ++ "\x7d" := by
  -- without the spaces in front one starts with a letter, the other with a brace
  have hskip : ∀ (k : Nat) (text : String),
      (spaces k ++ text).toList.dropWhile (· == ' ') = text.toList.dropWhile (· == ' ') := by
    intro k text
    rw [String.toList_append, spaces, String.toList_ofList]
    induction k with
    | zero => rfl
    | succ k ih => rw [List.replicate_succ, List.cons_append, List.dropWhile_cons_of_pos rfl, ih]
  intro h
  have hrest : ("match " ++ path ++ " \x7b").toList.dropWhile (· == ' ')
      = "\x7d".toList.dropWhile (· == ' ') := by
    rw [← hskip n, h, hskip m]
  have hletter : "match ".toList = 'm' :: "atch ".toList := by decide
  rw [String.toList_append, String.toList_append, hletter, List.cons_append,
    List.cons_append, List.dropWhile_cons_of_neg (by decide)] at hrest
  have hbrace : "\x7d".toList.dropWhile (· == ' ') = ['\x7d'] := by decide
  rw [hbrace] at hrest
  exact absurd (List.cons.inj hrest).1 (by decide)

/-- The rows of a collection tell its path and its texts. -/
theorem head_inj {level : Nat} {o o' : Outline} :
    o.head level = o'.head level ↔
      o.path = o'.path ∧ o.check = o'.check ∧ ∀ op, o.guard op = o'.guard op := by
  simp only [head, List.cons.injEq, String.append_right_inj, String.append_left_inj, and_true]
  refine and_congr_right' (and_congr_right' ⟨?_, ?_⟩)
  · rintro ⟨hget, hcreate, hupdate, hlist, hdelete⟩ op
    cases op <;> assumption
  · intro h
    exact ⟨h .get, h .create, h .update, h .list, h .delete⟩

mutual

/-- An outline can be told from its print, whatever follows. -/
theorem print_append_inj (level : Nat) {o o' : Outline} {rest rest' : List String}
    (h : o.print level ++ rest = o'.print level ++ rest') : o = o' ∧ rest = rest' := by
  match o, o' with
  | ⟨path, check, guard, children⟩, ⟨path', check', guard', children'⟩ =>
      rw [print_eq, print_eq, List.append_assoc, List.append_assoc, List.append_assoc,
        List.append_assoc] at h
      have hlen : (head level ⟨path, check, guard, children⟩).length
          = (head level ⟨path', check', guard', children'⟩).length := by
        rw [length_head, length_head]
      obtain ⟨hhead, hnested⟩ := List.append_inj h hlen
      obtain ⟨rfl, rfl⟩ := printAll_append_inj (level + 1) hnested
      obtain ⟨rfl, rfl, hguard⟩ := head_inj.1 hhead
      obtain rfl : guard = guard' := funext hguard
      exact ⟨rfl, rfl⟩

/-- **Outlines side by side can be told from their print**, in front of the row
that closes the block around them. -/
theorem printAll_append_inj (level : Nat) {n : Nat} {outlines outlines' : List Outline}
    {rest rest' : List String}
    (h : printAll level outlines ++ (spaces n ++ "\x7d") :: rest
      = printAll level outlines' ++ (spaces n ++ "\x7d") :: rest') :
    outlines = outlines' ∧ rest = rest' := by
  match outlines, outlines' with
  | [], [] => exact ⟨rfl, (List.cons.inj h).2⟩
  | [], ⟨path, check, guard, children⟩ :: outlines' =>
      rw [printAll, printAll, print] at h
      exact absurd (List.cons.inj h).1.symm (opening_ne_closing _ _ _)
  | ⟨path, check, guard, children⟩ :: outlines, [] =>
      rw [printAll, printAll, print] at h
      exact absurd (List.cons.inj h).1 (opening_ne_closing _ _ _)
  | o :: outlines, o' :: outlines' =>
      rw [printAll, printAll, List.append_assoc, List.append_assoc] at h
      obtain ⟨rfl, hrest⟩ := print_append_inj level h
      obtain ⟨rfl, hend⟩ := printAll_append_inj level hrest
      exact ⟨rfl, hend⟩

end

end Outline

end SecurityRules
