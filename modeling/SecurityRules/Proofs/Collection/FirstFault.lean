/-
  SecurityRules.Proofs.Collection.FirstFault
  ────────────────────────────────
  **THE FIRST FAULTY COLLECTION IS BLAMED.**

  A ruleset is built collection by collection, a parent before its children and
  siblings in their order.  Each collection goes through the same stages before
  its children are looked at: its schema, then the guard of each operation.  The
  first stage that fails ends the whole, and the fault goes out through the
  collections around it, each of which wraps it in its own path.

    * `Collection.faultOf_ownLines` — what a collection consists of by itself
      leaves the fault of the first stage that fails;
    * `Collection.faultOf_block` — a block leaves the blame of the first faulty
      place inside it.

  Main statement: `Ruleset.lines_eq_error_iff`.
-/
import SecurityRules.Ruleset
import SecurityRules.Proofs.Schema.Failure

namespace SecurityRules

namespace Collection

/-! ## §1. The stages of one collection. -/

/-- A stage in building what a collection consists of by itself. -/
inductive Stage where
  /-- What the schema demands. -/
  | schemaRule
  /-- The text of what the schema demands. -/
  | schemaText
  /-- The guard of an operation. -/
  | guard (op : Operation)
  /-- The text of the guard. -/
  | guardText (op : Operation)

/-- All stages, in the order in which a collection goes through them. -/
def Stage.every : List Stage :=
  [.schemaRule, .schemaText, .guard .get, .guardText .get, .guard .create, .guardText .create,
    .guard .update, .guardText .update, .guard .list, .guardText .list, .guard .delete,
    .guardText .delete]

/-- The operations come in the order in which the rules are written. -/
theorem Stage.every_eq :
    every = .schemaRule :: .schemaText
      :: Operation.every.flatMap fun op => [.guard op, .guardText op] := rfl

theorem Stage.mem_every (stage : Stage) : stage ∈ every := by
  have hop : ∀ op : Operation, .guard op ∈ every ∧ .guardText op ∈ every := by
    intro op
    cases op <;> simp [every]
  cases stage with
  | schemaRule => exact List.mem_cons_self
  | schemaText => exact List.mem_cons_of_mem _ List.mem_cons_self
  | guard op => exact (hop op).1
  | guardText op => exact (hop op).2

variable (c : Collection)

/-- The fault that a collection leaves at a stage, if the stage fails. A stage
that needs an earlier one fails with it. -/
def faultAt : Stage → Option Fault
  | .schemaRule => faultOf c.schemaRule
  | .schemaText => faultOf c.schemaText
  | .guard op => faultOf (c.guard op)
  | .guardText op => faultOf (c.guardText op)

/-- Whether some stage of a collection fails. -/
def IsFaulty : Prop :=
  ∃ stage fault, c.faultAt stage = some fault

/-- The fault of the first stage that fails. -/
def firstFault : Option Fault :=
  Stage.every.findSome? c.faultAt

variable {c}

/-- No stage leaves a first fault exactly if no stage fails. -/
theorem firstFault_eq_none : c.firstFault = none ↔ ¬c.IsFaulty := by
  rw [firstFault, List.findSome?_eq_none_iff, IsFaulty]
  constructor
  · rintro h ⟨stage, fault, hfault⟩
    rw [h stage stage.mem_every] at hfault
    cases hfault
  · intro h stage _
    rw [Option.eq_none_iff_forall_ne_some]
    intro fault hfault
    exact h ⟨stage, fault, hfault⟩

variable (c)

/-- The allow lines leave the first fault among their guards, operation by
operation, and a guard fails before its text does. -/
theorem faultOf_allowLines (ops : List Operation) :
    faultOf (c.allowLines ops)
      = (ops.flatMap fun op => [.guard op, .guardText op]).findSome? c.faultAt := by
  induction ops with
  | nil => rfl
  | cons op ops ih =>
      have hguard : ([.guard op, .guardText op] : List Stage).findSome? c.faultAt
          = faultOf (c.guardText op) := by
        rw [findSome?_cons_eq_or, List.findSome?_singleton]
        exact faultOf_or_bind _ _
      rw [allowLines, faultOf_bind_bind, ih, List.flatMap_cons, List.findSome?_append, hguard]

/-- **What a collection consists of by itself leaves the fault of the first
stage that fails.** -/
theorem faultOf_ownLines : faultOf c.ownLines = c.firstFault := by
  -- only the texts are put together, but the stages before them fail in the same way
  have hschema : (faultOf c.schemaRule).or (faultOf c.schemaText) = faultOf c.schemaText :=
    faultOf_or_bind _ _
  rw [ownLines, faultOf_bind_bind, faultOf_allowLines, ← hschema, Option.or_assoc, firstFault,
    Stage.every_eq, findSome?_cons_eq_or, findSome?_cons_eq_or]
  rfl

/-- Whatever a guard fails with says what went wrong, without any collection
around it. -/
theorem raises_guard (op : Operation) : Raises Fault.IsCause (c.guard op) := by
  have hin : ∀ op document, Raises Fault.IsCause (c.accessIn op document) :=
    fun op document => Predicate.raises_resolve _
  cases op with
  | create => exact (hin _ _).bind fun _ => raises_ok _
  | update =>
      refine (hin _ _).bind fun _ => ?_
      split
      · exact (hin _ _).bind fun _ => raises_ok _
      · exact raises_ok _
  | get | list | delete => exact hin _ _

theorem raises_allowLines (ops : List Operation) : Raises Fault.IsCause (c.allowLines ops) := by
  induction ops with
  | nil => exact raises_ok _
  | cons op ops ih =>
      have htext : Raises Fault.IsCause (c.guardText op) :=
        (c.raises_guard op).bind Rule.raises_render_cause
      rw [allowLines]
      exact htext.bind fun _ => ih.bind fun _ => raises_ok _

/-- The fault of a collection by itself is the bare cause. -/
theorem isCause_of_firstFault {c : Collection} {own : Fault} (h : c.firstFault = some own) :
    own.IsCause := by
  have hschema : Raises Fault.IsCause c.schemaText :=
    (Schema.raises_rule _ c.schema).bind Rule.raises_render_cause
  have hown : Raises Fault.IsCause c.ownLines :=
    hschema.bind fun _ => (c.raises_allowLines _).bind fun _ => raises_ok _
  rw [← faultOf_ownLines, faultOf_eq_some] at h
  exact hown own h

/-! ## §2. Places. -/

/-- A collection with the collections around it, the outermost first. -/
structure Place where
  around : List Collection
  collection : Collection

/-- A fault wrapped in the paths of collections, of which the first is the
outermost. -/
def wrapIn (path : List Collection) (fault : Fault) : Fault :=
  path.foldr (fun c => Fault.inCollection c.relativePath) fault

/-- A fault of the collection at a place, as it comes out of the outermost
one. -/
def Place.wrap (p : Place) (fault : Fault) : Fault :=
  wrapIn (p.around ++ [p.collection]) fault

/-- The fault that the collection at a place leaves by itself, as it comes out
of the outermost one. -/
def Place.blame (p : Place) : Option Fault :=
  p.collection.firstFault.map p.wrap

mutual

/-- The places in a collection which has others around it: first the collection
itself, then the places in its children, in order. -/
def placesIn (around : List Collection) : Collection → List Place
  | ⟨name, documentId, schema, access, preventsLockout, children⟩ =>
      let c : Collection := ⟨name, documentId, schema, access, preventsLockout, children⟩
      ⟨around, c⟩ :: placesInAll (around ++ [c]) children

/-- The places in some collections, in order. -/
def placesInAll (around : List Collection) : List Collection → List Place
  | [] => []
  | c :: collections => placesIn around c ++ placesInAll around collections

end

/-- The innermost collection is wrapped first. -/
theorem wrapIn_concat (path : List Collection) (c : Collection) (fault : Fault) :
    wrapIn (path ++ [c]) fault = wrapIn path (.inCollection c.relativePath fault) := by
  rw [wrapIn, List.foldr_append]
  rfl

mutual

/-- **A block leaves the blame of the first faulty place in it.** -/
theorem faultOf_block (around : List Collection) (c : Collection) :
    (faultOf c.block).map (wrapIn around) = (placesIn around c).findSome? Place.blame := by
  match c with
  | ⟨name, documentId, schema, access, preventsLockout, children⟩ =>
      -- the children have this collection around them as well
      have hnested := faultOf_blocks
        (around ++ [⟨name, documentId, schema, access, preventsLockout, children⟩]) children
      rw [block, placesIn]
      generalize (⟨name, documentId, schema, access, preventsLockout, children⟩ : Collection) = c
        at hnested ⊢
      have hwrap : wrapIn around ∘ Fault.inCollection c.relativePath = wrapIn (around ++ [c]) :=
        funext fun fault => (wrapIn_concat around c fault).symm
      show (faultOf (Except.mapError (Fault.inCollection c.relativePath) _)).map _ = _
      rw [faultOf_mapError, Option.map_map, hwrap, faultOf_bind_bind, faultOf_ownLines,
        Option.map_or, hnested, findSome?_cons_eq_or]
      rfl

/-- Collections side by side leave the fault of the first faulty place in them.
-/
theorem faultOf_blocks (around : List Collection) (collections : List Collection) :
    (faultOf (blocks collections)).map (wrapIn around)
      = (placesInAll around collections).findSome? Place.blame := by
  match collections with
  | [] => rfl
  | c :: collections =>
      rw [blocks, placesInAll, faultOf_bind_bind, Option.map_or, faultOf_block around c,
        faultOf_blocks around collections, List.findSome?_append]

end

end Collection

/-! ## §3. Rulesets. -/

namespace Ruleset

variable (r : Ruleset)

/-- The places in a ruleset, a parent before its children and siblings in
order. -/
def places : List Collection.Place :=
  Collection.placesInAll [] r.collections

/-- So do the collections of a ruleset. -/
theorem faultOf_collectionBlocks (collections : List Collection) :
    faultOf (collectionBlocks collections)
      = (Collection.placesInAll [] collections).findSome? Collection.Place.blame := by
  induction collections with
  | nil => rfl
  | cons c collections ih =>
      have hblock : faultOf c.block
          = (Collection.placesIn [] c).findSome? Collection.Place.blame := by
        rw [← Collection.faultOf_block [] c]
        exact Option.map_id_apply.symm
      rw [collectionBlocks, faultOf_bind_bind, ih, Collection.placesInAll, List.findSome?_append,
        hblock]

/-- A ruleset leaves the blame of the first faulty place. -/
theorem faultOf_lines : faultOf r.lines = r.places.findSome? Collection.Place.blame := by
  rw [lines, faultOf_bind_pure, faultOf_collectionBlocks, places]

/-- **The first faulty collection is blamed.** A ruleset cannot be built exactly
if some collection in it is faulty. The fault is that of the first stage that
fails of the first faulty collection; it is wrapped in the paths of the
collections from the outermost one down to that one, and in nothing else. -/
theorem lines_eq_error_iff :
    ((∃ fault, r.lines = .error fault) ↔ ∃ p ∈ r.places, p.collection.IsFaulty)
      ∧ ∀ fault, r.lines = .error fault ↔
        ∃ before p after own, r.places = before ++ p :: after
          ∧ (∀ q ∈ before, ¬q.collection.IsFaulty)
          ∧ p.collection.firstFault = some own ∧ own.IsCause ∧ fault = p.wrap own := by
  -- a scan for the first blame passes over the places of sound collections
  have hblame : ∀ p : Collection.Place, p.blame = none ↔ ¬p.collection.IsFaulty := by
    intro p
    rw [Collection.Place.blame, Option.map_eq_none_iff, Collection.firstFault_eq_none]
  constructor
  · have hnone : faultOf r.lines = none ↔ ∀ p ∈ r.places, ¬p.collection.IsFaulty := by
      simp only [faultOf_lines, List.findSome?_eq_none_iff, hblame]
    have hsome : (∃ fault, r.lines = .error fault) ↔ faultOf r.lines ≠ none := by
      simp only [Option.ne_none_iff_exists', faultOf_eq_some]
    rw [hsome, ne_eq, hnone]
    simp only [Classical.not_forall, Classical.not_not, exists_prop]
  · intro fault
    rw [← faultOf_eq_some, faultOf_lines, List.findSome?_eq_some_iff]
    constructor
    · rintro ⟨before, p, after, hplaces, hp, hbefore⟩
      obtain ⟨own, hown, rfl⟩ := Option.map_eq_some_iff.1 hp
      have hclean : ∀ q ∈ before, ¬q.collection.IsFaulty :=
        fun q hq => (hblame q).1 (hbefore q hq)
      exact ⟨before, p, after, own, hplaces, hclean, hown,
        Collection.isCause_of_firstFault hown, rfl⟩
    · rintro ⟨before, p, after, own, hplaces, hbefore, hown, -, rfl⟩
      refine ⟨before, p, after, hplaces, ?_, fun q hq => (hblame q).2 (hbefore q hq)⟩
      exact Option.map_eq_some_iff.2 ⟨own, hown, rfl⟩

/-- A child of which two guards cannot be built: that for updates speaks of a
field, and that for lists says nothing. -/
def faultyInner : Collection :=
  .allow (.allow (.empty "inner" "i") (.only .list) (.ofLiteral " ")) (.only .update)
    (.ofCondition ⟨.field .this, .equal, .literal "1"⟩)

/-- A collection of which no guard says anything. -/
def faultyLater : Collection :=
  .allow (.empty "later" "l") .full (.ofLiteral " ")

/-- A sound collection with a faulty child, and a faulty one behind it. -/
def twiceFaulty : Ruleset :=
  .run .empty [.add (.addChild (.empty "outer" "o") faultyInner), .add faultyLater]

/-- Of two faults in one collection that of the earlier stage counts, and that of
a child before that of a later sibling of its parent. -/
theorem lines_twiceFaulty :
    faultyInner.faultAt (.guard .update) = some .unboundThis
      ∧ faultyInner.faultAt (.guardText .list) = some .emptyRule
      ∧ faultyLater.faultAt (.guardText .get) = some .emptyRule
      ∧ (∃ p ∈ twiceFaulty.places, p.collection.IsFaulty)
      ∧ twiceFaulty.lines
        = .error (.inCollection "/outer/\x7bo\x7d" (.inCollection "/inner/\x7bi\x7d"
          .unboundThis)) := by
  have hupdate : faultyInner.faultAt (.guard .update) = some .unboundThis := by decide +kernel
  have hfirst : faultyInner.firstFault = some .unboundThis := by decide +kernel
  have houter : (Collection.addChild (.empty "outer" "o") faultyInner).firstFault = none := by
    decide +kernel
  obtain ⟨hfaulty, hblame⟩ := lines_eq_error_iff twiceFaulty
  have herror := (hblame _).2
    ⟨[⟨[], .addChild (.empty "outer" "o") faultyInner⟩],
      ⟨[.addChild (.empty "outer" "o") faultyInner], faultyInner⟩, [⟨[], faultyLater⟩],
      .unboundThis, rfl,
      List.forall_mem_singleton.2 (Collection.firstFault_eq_none.1 houter), hfirst,
      Collection.isCause_of_firstFault hfirst, rfl⟩
  exact ⟨hupdate, by decide +kernel, by decide +kernel, hfaulty.1 ⟨_, herror⟩, herror⟩

end Ruleset

end SecurityRules
