/-
  SecurityRules.Proofs.Collection.Listing
  ────────────────────────────────
  **THE LISTING OF A RULESET IS A PRINT OF ITS COLLECTIONS.**

  A ruleset puts five lines of its own around what its collections contribute,
  and every collection contributes eight: two that open and close its block, one
  for its schema and one for each operation.  Places are numbered in the order in
  which their blocks open.

    * `Ruleset.exists_lines_iff` — the listing frames the print of the outlines;
    * `Collection.exists_print_of_mem_placesIn` — where the print of a place
      stands;
    * `Ruleset.getElem?_guardRow` — the row that guards an operation.

  Main statement: `Ruleset.listing_of_lines`.
-/
import SecurityRules.Proofs.Collection.FirstFault
import SecurityRules.Proofs.Collection.Outline

namespace SecurityRules

/-! ## §1. Rows. -/

namespace Collection

/-- The row in which the block of a place opens, which has the number `n`. Three
rows of the ruleset come first and eight for each place before, but the
collections around the place are still open. -/
def Place.firstRow (p : Place) (n : Nat) : Nat :=
  3 + 8 * n - p.around.length

/-- The row that guards an operation. -/
def Place.guardRow (p : Place) (n : Nat) (op : Operation) : Nat :=
  p.firstRow n + 2 + Operation.every.idxOf op

mutual

/-- A collection contributes eight rows for each place in it. -/
theorem length_print_of_outline (around : List Collection) {c : Collection} {o : Outline}
    (h : c.outline = .ok o) (level : Nat) :
    (o.print level).length = 8 * (placesIn around c).length := by
  match c with
  | ⟨name, documentId, schema, access, preventsLockout, children⟩ =>
      obtain ⟨check, guard, nested, -, -, hnested, rfl⟩ := outline_eq_ok.1 h
      have hrows := length_printAll_of_outline
        (around ++ [⟨name, documentId, schema, access, preventsLockout, children⟩]) hnested
        (level + 1)
      rw [Outline.print_eq, placesIn]
      simp only [List.length_append, List.length_cons, List.length_nil, Outline.length_head, hrows]
      omega

/-- Every place has eight rows of its own: seven in front of its children and one
behind them. -/
theorem length_printAll_of_outline (around : List Collection) {collections : List Collection}
    {forest : List Outline} (h : outlineAll collections = .ok forest) (level : Nat) :
    (Outline.printAll level forest).length = 8 * (placesInAll around collections).length := by
  match collections with
  | [] =>
      cases h
      rfl
  | c :: collections =>
      obtain ⟨o, rest, ho, hrest, rfl⟩ := outlineAll_cons_eq_ok.1 h
      rw [Outline.printAll, placesInAll, List.length_append, List.length_append,
        length_print_of_outline around ho, length_printAll_of_outline around hrest, Nat.mul_add]

end

mutual

/-- **Where the print of a place stands.** In front of it is what the places
before it contribute, as far as they are closed. -/
theorem exists_print_of_mem_placesIn (around : List Collection) {c : Collection} {o : Outline}
    (h : c.outline = .ok o) (n : Nat) {p : Place} {m : Nat}
    (hp : (p, m) ∈ (placesIn around c).zipIdx n) :
    ∃ q before after, p.collection.outline = .ok q
      ∧ o.print around.length = before ++ (q.print p.around.length ++ after)
      ∧ before.length + 8 * n + p.around.length = 8 * m + around.length := by
  match c with
  | ⟨name, documentId, schema, access, preventsLockout, children⟩ =>
      rw [placesIn, List.zipIdx_cons] at hp
      rcases List.mem_cons.1 hp with hself | hchild
      · cases hself
        exact ⟨o, [], [], h, (List.append_nil _).symm, by rw [List.length_nil, Nat.zero_add]⟩
      · -- the child comes behind the seven rows that open the block
        obtain ⟨check, guard, nested, -, -, hnested, ho⟩ := outline_eq_ok.1 h
        have hchildren : o.children = nested := by rw [ho]
        obtain ⟨q, before, after, hq, hprint, hrows⟩ :=
          exists_print_of_mem_placesInAll _ hnested (n + 1) hchild
        rw [List.length_append, List.length_singleton] at hprint hrows
        rw [Outline.print_eq, hchildren, hprint]
        refine ⟨q, o.head around.length ++ before,
          after ++ [spaces (2 * (around.length + 2)) ++ "\x7d"], hq, ?_, ?_⟩
        · simp only [List.append_assoc]
        · rw [List.length_append, Outline.length_head]
          omega

/-- The rows of a place stand together, and their position follows from its
number in pre-order and its depth. -/
theorem exists_print_of_mem_placesInAll (around : List Collection)
    {collections : List Collection} {forest : List Outline}
    (h : outlineAll collections = .ok forest) (n : Nat) {p : Place} {m : Nat}
    (hp : (p, m) ∈ (placesInAll around collections).zipIdx n) :
    ∃ q before after, p.collection.outline = .ok q
      ∧ Outline.printAll around.length forest = before ++ (q.print p.around.length ++ after)
      ∧ before.length + 8 * n + p.around.length = 8 * m + around.length := by
  match collections with
  | [] => exact absurd hp List.not_mem_nil
  | c :: collections =>
      obtain ⟨o, rest, ho, hrest, rfl⟩ := outlineAll_cons_eq_ok.1 h
      rw [placesInAll, List.zipIdx_append] at hp
      rw [Outline.printAll]
      -- the place is in the first collection, or behind all places of it
      rcases List.mem_append.1 hp with hfirst | hlater
      · obtain ⟨q, before, after, hq, hprint, hrows⟩ :=
          exists_print_of_mem_placesIn around ho n hfirst
        refine ⟨q, before, after ++ Outline.printAll around.length rest, hq, ?_, hrows⟩
        rw [hprint, List.append_assoc, List.append_assoc]
      · obtain ⟨q, before, after, hq, hprint, hrows⟩ :=
          exists_print_of_mem_placesInAll around hrest _ hlater
        refine ⟨q, o.print around.length ++ before, after, hq, ?_, ?_⟩
        · rw [hprint, List.append_assoc]
        · rw [List.length_append, length_print_of_outline around ho]
          omega

end

end Collection

/-! ## §2. Listings. -/

namespace Ruleset

/-- The rows of a ruleset around those of its collections, spelled out. -/
def frame (path : String) (body : List String) : List String :=
  ["rules_version = '2';", "service cloud.firestore \x7b",
      spaces 2 ++ ("match " ++ path ++ " \x7b")]
    ++ body ++ [spaces 2 ++ "\x7d", "\x7d"]

/-- The service and the collections are told from a whole listing. -/
theorem frame_inj {path path' : String} {forest forest' : List Outline}
    (h : frame path (Outline.printAll 0 forest) = frame path' (Outline.printAll 0 forest')) :
    path = path' ∧ forest = forest' := by
  unfold frame at h
  rw [List.append_assoc, List.append_assoc] at h
  obtain ⟨hhead, hbody⟩ := List.append_inj h rfl
  simp only [List.cons.injEq, String.append_right_inj, String.append_left_inj, and_true,
    true_and] at hhead
  exact ⟨hhead, (Outline.printAll_append_inj 0 hbody).1⟩

theorem collectionBlocks_eq_ok {collections : List Collection} {lines : List Line} :
    collectionBlocks collections = .ok lines ↔
      ∃ forest, Collection.outlineAll collections = .ok forest
        ∧ forest.map (fun o => Line.block o.lines) = lines := by
  induction collections generalizing lines with
  | nil => simp [collectionBlocks, Collection.outlineAll]
  | cons c collections ih =>
      rw [collectionBlocks, Except.bind_bind_eq_ok]
      simp only [Collection.outlineAll_cons_eq_ok]
      constructor
      · rintro ⟨first, rest, hfirst, hrest, rfl⟩
        obtain ⟨o, ho, rfl⟩ := Collection.block_eq_ok.1 hfirst
        obtain ⟨forest, hforest, rfl⟩ := ih.1 hrest
        exact ⟨o :: forest, ⟨o, forest, ho, hforest, rfl⟩, rfl⟩
      · rintro ⟨_, ⟨o, forest, ho, hforest, rfl⟩, rfl⟩
        exact ⟨_, _, Collection.block_eq_ok.2 ⟨o, ho, rfl⟩, ih.2 ⟨forest, hforest, rfl⟩, rfl⟩

/-- Laying out the blocks of the collections prints their outlines. -/
theorem layOut_blocks (forest : List Outline) :
    Line.layOutAll 1 (forest.map fun o => .block o.lines) = Outline.printAll 0 forest := by
  induction forest with
  | nil => rfl
  | cons o forest ih =>
      rw [List.map_cons, Line.layOutAll, ih, Line.layOut, Outline.layOut_lines 0 o,
        Outline.printAll]

/-- **The listing of a ruleset frames the print of the outlines.** -/
theorem exists_lines_iff {r : Ruleset} {rows : List String} :
    (∃ lines, r.lines = .ok lines ∧ listing lines = rows) ↔
      ∃ forest, Collection.outlineAll r.collections = .ok forest
        ∧ frame r.path (Outline.printAll 0 forest) = rows := by
  have hframe : ∀ forest : List Outline,
      listing [.text versionLine, .text serviceLine,
        .block (.text (matchLine r.path) :: forest.map (fun o => .block o.lines)
          ++ [.text closingLine]), .text closingLine]
        = frame r.path (Outline.printAll 0 forest) := by
    intro forest
    unfold listing frame
    simp only [Line.layOutAll, Line.layOut, List.cons_append, List.nil_append, List.append_nil,
      Line.layOutAll_append, indent_eq_spaces, List.append_assoc]
    rw [layOut_blocks]
    rfl
  simp only [lines, Except.bind_eq_ok, Except.pure_eq_ok, collectionBlocks_eq_ok]
  constructor
  · rintro ⟨_, ⟨_, ⟨forest, hforest, rfl⟩, rfl⟩, rfl⟩
    exact ⟨forest, hforest, (hframe forest).symm⟩
  · rintro ⟨forest, hforest, rfl⟩
    exact ⟨_, ⟨_, ⟨forest, hforest, rfl⟩, rfl⟩, hframe forest⟩

variable {r : Ruleset} {lines : List Line}

/-- The listing in front of a place, its print, and what follows. -/
theorem exists_print_of_mem_places (h : r.lines = .ok lines) {p : Collection.Place} {n : Nat}
    (hp : (p, n) ∈ r.places.zipIdx) :
    ∃ o before after, p.collection.outline = .ok o
      ∧ listing lines = before ++ (o.print p.around.length ++ after)
      ∧ before.length = p.firstRow n := by
  obtain ⟨forest, hforest, hframe⟩ := exists_lines_iff.1 ⟨lines, h, rfl⟩
  obtain ⟨o, before, after, ho, hprint, hrows⟩ :=
    Collection.exists_print_of_mem_placesInAll [] hforest 0 hp
  refine ⟨o, ["rules_version = '2';", "service cloud.firestore \x7b",
      spaces 2 ++ ("match " ++ r.path ++ " \x7b")] ++ before,
    after ++ [spaces 2 ++ "\x7d", "\x7d"], ho, ?_, ?_⟩
  · rw [List.length_nil] at hprint
    rw [← hframe, frame, hprint]
    simp only [List.append_assoc]
  · simp only [List.length_append, List.length_cons, List.length_nil] at hrows ⊢
    unfold Collection.Place.firstRow
    omega

/-- **The row that guards an operation** says what the collection at the place
has to say about it, whatever stands around. -/
theorem getElem?_guardRow (h : r.lines = .ok lines) {p : Collection.Place} {n : Nat}
    (hp : (p, n) ∈ r.places.zipIdx) (op : Operation) :
    ∃ guard, p.collection.guardText op = .ok guard
      ∧ (listing lines)[p.guardRow n op]?
        = some (spaces (2 * (p.around.length + 3)) ++ allowLine op guard) := by
  obtain ⟨o, before, after, ho, hlisting, hrow⟩ := exists_print_of_mem_places h hp
  obtain ⟨check, guard, nested, -, hguard, -, rfl⟩ := Collection.outline_eq_ok.1 ho
  refine ⟨guard op, hguard op, ?_⟩
  have hbehind : before.length ≤ p.guardRow n op := by
    unfold Collection.Place.guardRow
    omega
  have hskip : p.guardRow n op - before.length = 2 + Operation.every.idxOf op := by
    unfold Collection.Place.guardRow
    omega
  rw [hlisting, List.getElem?_append_right hbehind, hskip, Outline.print_eq, Outline.head_eq]
  cases op <;> rfl

/-- **A listing is a faithful print of the collections.** It has five rows and
eight for each collection. What a collection contributes depends on its own
outline and level alone: it is what it contributes where it stands alone, moved
to the right. And the listing tells the path of the documents and, of each
collection, its path, the texts of its schema and of its guards and its place
among the others. -/
theorem listing_of_lines (h : r.lines = .ok lines) :
    (listing lines).length = 5 + 8 * r.places.length
      ∧ ∃ forest, Collection.outlineAll r.collections = .ok forest
        ∧ listing lines = frame r.path (Outline.printAll 0 forest)
        ∧ (∀ p n, (p, n) ∈ r.places.zipIdx → ∃ o before after,
            p.collection.outline = .ok o
              ∧ listing lines = before ++ (o.print p.around.length ++ after)
              ∧ before.length = p.firstRow n
              ∧ ∀ database, ∃ alone own, (Ruleset.mk database [p.collection]).lines = .ok alone
                ∧ listing alone = frame (Ruleset.mk database [p.collection]).path own
                ∧ o.print p.around.length = own.map (spaces (2 * p.around.length) ++ ·))
        ∧ ∀ (other : Ruleset) (otherLines : List Line), other.lines = .ok otherLines →
            listing otherLines = listing lines →
            other.path = r.path ∧ Collection.outlineAll other.collections = .ok forest := by
  obtain ⟨forest, hforest, hframe⟩ := exists_lines_iff.1 ⟨lines, h, rfl⟩
  refine ⟨?_, forest, hforest, hframe.symm, ?_, ?_⟩
  · rw [← hframe, frame, List.length_append, List.length_append,
      Collection.length_printAll_of_outline [] hforest, places]
    show 3 + _ + 2 = _
    omega
  · intro p n hp
    obtain ⟨o, before, after, ho, hlisting, hrow⟩ := exists_print_of_mem_places h hp
    refine ⟨o, before, after, ho, hlisting, hrow, fun database => ?_⟩
    -- the same collection alone has one outline, printed at level 0
    have hone : Collection.outlineAll (Ruleset.mk database [p.collection]).collections = .ok [o] :=
      Collection.outlineAll_cons_eq_ok.2 ⟨o, [], ho, rfl, rfl⟩
    obtain ⟨alone, halone, hown⟩ := exists_lines_iff.2 ⟨[o], hone, rfl⟩
    refine ⟨alone, Outline.printAll 0 [o], halone, hown, ?_⟩
    have hdeeper := Outline.printAll_add 0 p.around.length [o]
    rw [Nat.zero_add] at hdeeper
    rw [← hdeeper, Outline.printAll, Outline.printAll, List.append_nil]
  · intro other otherLines hother hsame
    obtain ⟨otherForest, hotherForest, hotherFrame⟩ := exists_lines_iff.1 ⟨otherLines, hother, rfl⟩
    -- two frames with the same rows
    rw [hsame, ← hframe] at hotherFrame
    obtain ⟨hpath, rfl⟩ := frame_inj hotherFrame
    exact ⟨hpath, hotherForest⟩

/-- Books which whoever is signed in may get. -/
def sharedBooks : Collection :=
  .allow (.empty "books" "book") (.only .get)
    (.ofCondition ⟨.literal "request.auth", .notEqual, .literal "null"⟩)

/-- Shelves with books on them, and readers. -/
def library : Ruleset :=
  .run .empty
    [.add (.addChild (.empty "shelves" "shelf") sharedBooks), .add (.empty "readers" "reader")]

/-- A library with books on its shelves, row by row: 29 rows for three
collections. -/
theorem listing_library :
    ∃ lines, library.lines = .ok lines ∧ (listing lines).length = 29
      ∧ listing lines =
        ["rules_version = '2';",
          "service cloud.firestore \x7b",
          "  match /databases/\x7bdatabase\x7d/documents \x7b",
          "    match /shelves/\x7bshelf\x7d \x7b",
          "      function isValidSchema(data) \x7b return "
            ++ "(data.keys().hasAll([]) && data.keys().hasOnly([])); \x7d",
          "      allow get: if false;",
          "      allow create: if (false && isValidSchema(request.resource.data));",
          "      allow update: if (isValidSchema(request.resource.data) && false && false);",
          "      allow list: if false;",
          "      allow delete: if false;",
          "      match /books/\x7bbook\x7d \x7b",
          "        function isValidSchema(data) \x7b return "
            ++ "(data.keys().hasAll([]) && data.keys().hasOnly([])); \x7d",
          "        allow get: if request.auth != null;",
          "        allow create: if (false && isValidSchema(request.resource.data));",
          "        allow update: if (isValidSchema(request.resource.data) && false && false);",
          "        allow list: if false;",
          "        allow delete: if false;",
          "      \x7d",
          "    \x7d",
          "    match /readers/\x7breader\x7d \x7b",
          "      function isValidSchema(data) \x7b return "
            ++ "(data.keys().hasAll([]) && data.keys().hasOnly([])); \x7d",
          "      allow get: if false;",
          "      allow create: if (false && isValidSchema(request.resource.data));",
          "      allow update: if (isValidSchema(request.resource.data) && false && false);",
          "      allow list: if false;",
          "      allow delete: if false;",
          "    \x7d",
          "  \x7d",
          "\x7d"]
      ∧ (∃ o before after, sharedBooks.outline = .ok o
        ∧ listing lines = before ++ (o.print 1 ++ after) ∧ before.length = 10)
      ∧ ∀ (other : Ruleset) (otherLines : List Line), other.lines = .ok otherLines →
          listing otherLines = listing lines → other.path = library.path := by
  have hsound : faultOf library.lines = none := by decide +kernel
  obtain ⟨lines, hlines⟩ := faultOf_eq_none.1 hsound
  obtain ⟨hlength, forest, -, -, hplaces, hinj⟩ := listing_of_lines hlines
  have hrows : library.lines.toOption.map listing = some (listing lines) := by
    rw [hlines]
    rfl
  have hbooks : ((⟨library.collections.take 1, sharedBooks⟩ : Collection.Place), 1)
      ∈ library.places.zipIdx :=
    List.mem_cons_of_mem _ List.mem_cons_self
  obtain ⟨o, before, after, ho, hlisting, hrow, -⟩ := hplaces _ _ hbooks
  refine ⟨lines, hlines, hlength, Option.some.inj (hrows.symm.trans ?_),
    ⟨o, before, after, ho, hlisting, hrow⟩,
    fun other otherLines hother hsame => (hinj other otherLines hother hsame).1⟩
  decide +kernel

end Ruleset

end SecurityRules
