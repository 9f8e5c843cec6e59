/-
  SecurityRules.Proofs.Collection.Lockout
  ────────────────────────────────
  **WHAT IT CHANGES TO ALLOW LOCKOUTS.**

  Of a ruleset some places are chosen, by their numbers, and lockouts are allowed
  in the collections there.  Nothing changes but the guard for updates of these
  collections, and of it only the last clause goes: a predicate leaves the same
  fault against the stored and against the incoming document.

    * `Collection.faultOf_block_allowLockoutIn` — the faults stay;
    * `Collection.agree_print` — the rows stay, but for the chosen ones;
    * `Collection.exists_mem_placesIn_allowLockoutIn` — the places stay.

  Main statement: `Ruleset.lines_allowLockoutAt`.
-/
import SecurityRules.Proofs.Collection.Listing
import SecurityRules.Proofs.Collection.GuardText

namespace SecurityRules

/-! ## §1. Rows outside a set. -/

/-- Whether two lists of rows, which start at row `k`, are the same outside the
rows with the property `D`. -/
def AgreeExcept (D : Nat → Prop) (k : Nat) (rows others : List String) : Prop :=
  rows.length = others.length ∧ ∀ i, ¬D (k + i) → rows[i]? = others[i]?

variable {D : Nat → Prop} {k : Nat}

theorem agreeExcept_refl (rows : List String) : AgreeExcept D k rows rows :=
  ⟨rfl, fun _ _ => rfl⟩

/-- Lists of rows that agree agree one behind the other, where the second starts
below the first. -/
theorem AgreeExcept.append {rows others more others' : List String}
    (h : AgreeExcept D k rows others) (hmore : AgreeExcept D (k + rows.length) more others') :
    AgreeExcept D k (rows ++ more) (others ++ others') := by
  obtain ⟨hlen, hrows⟩ := h
  obtain ⟨hlenMore, hrowsMore⟩ := hmore
  refine ⟨by rw [List.length_append, List.length_append, hlen, hlenMore], fun i hi => ?_⟩
  by_cases hin : i < rows.length
  · rw [List.getElem?_append_left hin, List.getElem?_append_left (hlen ▸ hin)]
    exact hrows i hi
  · have hbehind : rows.length ≤ i := Nat.le_of_not_lt hin
    rw [List.getElem?_append_right hbehind, List.getElem?_append_right (hlen ▸ hbehind), ← hlen]
    refine hrowsMore _ ?_
    rwa [Nat.add_assoc, Nat.add_sub_cancel' hbehind]

theorem AgreeExcept.cons {row other : String} {rows others : List String}
    (hrow : ¬D k → row = other) (h : AgreeExcept D (k + 1) rows others) :
    AgreeExcept D k (row :: rows) (other :: others) := by
  have hone : AgreeExcept D k [row] [other] := by
    refine ⟨rfl, fun i hi => ?_⟩
    cases i with
    | zero => rw [hrow hi]
    | succ i => rfl
  exact hone.append h

namespace Collection

/-! ## §2. Allowing lockouts in chosen places. -/

mutual

/-- The collection, which has the number `n`, with lockouts allowed in it and in
the collections below it where the number is chosen. -/
def allowLockoutIn (chosen : Nat → Bool) (n : Nat) : Collection → Collection
  | ⟨name, documentId, schema, access, preventsLockout, children⟩ =>
      let c : Collection :=
        ⟨name, documentId, schema, access, preventsLockout,
          allowLockoutInAll chosen (n + 1) children⟩
      if chosen n then c.allowLockout else c

/-- The same for collections side by side, of which the first has the number
`n`. -/
def allowLockoutInAll (chosen : Nat → Bool) (n : Nat) : List Collection → List Collection
  | [] => []
  | c :: collections =>
      allowLockoutIn chosen n c
        :: allowLockoutInAll chosen (n + (placesIn [] c).length) collections

end

variable {chosen : Nat → Bool}

/-- Only the flag changes, and the children. -/
theorem allowLockoutIn_eq (chosen : Nat → Bool) (n : Nat) (c : Collection) :
    allowLockoutIn chosen n c
      = ⟨c.name, c.documentId, c.schema, c.access, c.preventsLockout && !chosen n,
          allowLockoutInAll chosen (n + 1) c.children⟩ := by
  obtain ⟨name, documentId, schema, access, preventsLockout, children⟩ := c
  rw [allowLockoutIn]
  cases chosen n <;> cases preventsLockout <;> rfl

mutual

/-- How many places there are does not depend on what stands around. -/
theorem length_placesIn (around around' : List Collection) (c : Collection) :
    (placesIn around c).length = (placesIn around' c).length := by
  match c with
  | ⟨name, documentId, schema, access, preventsLockout, children⟩ =>
      rw [placesIn, placesIn, List.length_cons, List.length_cons,
        length_placesInAll _ _ children]

theorem length_placesInAll (around around' : List Collection) (collections : List Collection) :
    (placesInAll around collections).length = (placesInAll around' collections).length := by
  match collections with
  | [] => rfl
  | c :: collections =>
      rw [placesInAll, placesInAll, List.length_append, List.length_append,
        length_placesIn around around' c, length_placesInAll around around' collections]

end

mutual

/-- No place is added and none is lost. -/
theorem length_placesIn_allowLockoutIn (around around' : List Collection) (n : Nat)
    (c : Collection) :
    (placesIn around' (allowLockoutIn chosen n c)).length = (placesIn around c).length := by
  match c with
  | ⟨name, documentId, schema, access, preventsLockout, children⟩ =>
      rw [allowLockoutIn_eq, placesIn, placesIn, List.length_cons, List.length_cons,
        length_placesInAll_allowLockoutInAll _ _ _ children]

theorem length_placesInAll_allowLockoutInAll (around around' : List Collection) (n : Nat)
    (collections : List Collection) :
    (placesInAll around' (allowLockoutInAll chosen n collections)).length
      = (placesInAll around collections).length := by
  match collections with
  | [] => rfl
  | c :: collections =>
      rw [allowLockoutInAll, placesInAll, placesInAll, List.length_append, List.length_append,
        length_placesIn_allowLockoutIn around around' n c,
        length_placesInAll_allowLockoutInAll around around' _ collections]

end

/-! ## §3. Faults stay. -/

/-- A guard looks at the flag for updates only. -/
theorem guardText_congr {c d : Collection} (haccess : d.access = c.access) {op : Operation}
    (h : op = .update → d.preventsLockout = c.preventsLockout) :
    d.guardText op = c.guardText op := by
  have htext : ∀ document, d.accessText op document = c.accessText op document := by
    intro document
    unfold accessText
    rw [haccess]
  cases op with
  | get | list | delete => exact htext storedDocument
  | create => rw [guardText_create, guardText_create, htext]
  | update =>
      cases hflag : c.preventsLockout with
      | false =>
          rw [guardText_update_of_allowed hflag, guardText_update_of_allowed ((h rfl).trans hflag),
            htext]
      | true =>
          rw [guardText_update_of_prevented hflag,
            guardText_update_of_prevented ((h rfl).trans hflag), htext, htext]

/-- The flag makes no difference to the fault of a guard. -/
theorem faultOf_guardText_congr {c d : Collection} (haccess : d.access = c.access)
    (op : Operation) : faultOf (d.guardText op) = faultOf (c.guardText op) := by
  by_cases hupdate : op = .update
  · rw [hupdate, faultOf_guardText_update, faultOf_guardText_update]
    unfold accessText
    rw [haccess]
  · rw [guardText_congr haccess fun h => absurd h hupdate]

/-- What a collection consists of by itself fails alike with the flag and
without. -/
theorem faultOf_ownLines_congr {c d : Collection} (hschema : d.schema = c.schema)
    (haccess : d.access = c.access) : faultOf d.ownLines = faultOf c.ownLines := by
  have hcheck : d.schemaText = c.schemaText := by
    unfold schemaText schemaRule
    rw [hschema]
  have hallow : ∀ ops, faultOf (d.allowLines ops) = faultOf (c.allowLines ops) := by
    intro ops
    induction ops with
    | nil => rfl
    | cons op ops ih =>
        rw [allowLines, allowLines, faultOf_bind_bind, faultOf_bind_bind, ih,
          faultOf_guardText_congr haccess]
  rw [ownLines, ownLines, faultOf_bind_bind, faultOf_bind_bind, hcheck, hallow]

/-- A block fails as the collection by itself does, and else as its children do,
in the path of the collection. -/
theorem faultOf_block_eq (c : Collection) :
    faultOf c.block
      = ((faultOf c.ownLines).or (faultOf (blocks c.children))).map
          (Fault.inCollection c.relativePath) := by
  obtain ⟨name, documentId, schema, access, preventsLockout, children⟩ := c
  rw [block]
  show faultOf (Except.mapError (Fault.inCollection _) _) = _
  rw [faultOf_mapError, faultOf_bind_bind]

mutual

/-- **The fault of a block stays.** -/
theorem faultOf_block_allowLockoutIn (chosen : Nat → Bool) (n : Nat) (c : Collection) :
    faultOf (allowLockoutIn chosen n c).block = faultOf c.block := by
  match c with
  | ⟨name, documentId, schema, access, preventsLockout, children⟩ =>
      have hnested := faultOf_blocks_allowLockoutInAll chosen (n + 1) children
      have hown : ∀ (prevents : Bool) (nested : List Collection),
          faultOf (Collection.mk name documentId schema access prevents nested).ownLines
            = faultOf (Collection.mk name documentId schema access preventsLockout
              children).ownLines :=
        fun _ _ => faultOf_ownLines_congr rfl rfl
      rw [allowLockoutIn_eq, faultOf_block_eq, faultOf_block_eq, hnested, hown]
      rfl

theorem faultOf_blocks_allowLockoutInAll (chosen : Nat → Bool) (n : Nat)
    (collections : List Collection) :
    faultOf (blocks (allowLockoutInAll chosen n collections)) = faultOf (blocks collections) := by
  match collections with
  | [] => rfl
  | c :: collections =>
      rw [allowLockoutInAll, blocks, blocks, faultOf_bind_bind, faultOf_bind_bind,
        faultOf_block_allowLockoutIn chosen n c,
        faultOf_blocks_allowLockoutInAll chosen _ collections]

end

/-! ## §4. Rows and places stay. -/

/-- The outlines of two collections that grant the same tell the same, but for the
guard for updates. -/
theorem outline_congr {c d : Collection} {o o' : Outline} (ho : c.outline = .ok o)
    (ho' : d.outline = .ok o') (hpath : d.relativePath = c.relativePath)
    (hschema : d.schema = c.schema) (haccess : d.access = c.access) :
    o'.path = o.path ∧ o'.check = o.check
      ∧ ∀ op, (op = .update → d.preventsLockout = c.preventsLockout) →
        o'.guard op = o.guard op := by
  obtain ⟨check, guard, nested, hcheck, hguard, -, rfl⟩ := outline_eq_ok.1 ho
  obtain ⟨check', guard', nested', hcheck', hguard', -, rfl⟩ := outline_eq_ok.1 ho'
  refine ⟨hpath, ?_, fun op hop => ?_⟩
  · have htext : d.schemaText = c.schemaText := by
      unfold schemaText schemaRule
      rw [hschema]
    rw [htext, hcheck] at hcheck'
    exact (Except.ok.inj hcheck').symm
  · have htext := hguard' op
    rw [guardText_congr haccess hop, hguard op] at htext
    exact (Except.ok.inj htext).symm

/-- An outline has those of the children. -/
theorem outlineAll_children {c : Collection} {o : Outline} (ho : c.outline = .ok o) :
    outlineAll c.children = .ok o.children := by
  obtain ⟨check, guard, nested, -, -, hnested, rfl⟩ := outline_eq_ok.1 ho
  exact hnested

/-- The rows of one collection agree where its path and its texts do. -/
theorem agree_head {o o' : Outline} (hpath : o'.path = o.path) (hcheck : o'.check = o.check)
    (hguard : ∀ op, ¬D (k + 2 + Operation.every.idxOf op) → o'.guard op = o.guard op)
    (level : Nat) : AgreeExcept D k (o.head level) (o'.head level) := by
  have hrow : ∀ op, ¬D (k + 2 + Operation.every.idxOf op) →
      spaces (2 * (level + 3)) ++ allowLine op (o.guard op)
        = spaces (2 * (level + 3)) ++ allowLine op (o'.guard op) := by
    intro op hop
    rw [hguard op hop]
  rw [Outline.head_eq, Outline.head_eq, hpath, hcheck]
  exact .cons (fun _ => rfl) <| .cons (fun _ => rfl) <| .cons (hrow .get) <|
    .cons (hrow .create) <| .cons (hrow .update) <| .cons (hrow .list) <|
    .cons (hrow .delete) <| agreeExcept_refl []

mutual

/-- **The rows stay, but for the chosen ones.** The print starts at row `k`. -/
theorem agree_print (around : List Collection) {c : Collection} {o o' : Outline}
    (ho : c.outline = .ok o) {n : Nat} (ho' : (allowLockoutIn chosen n c).outline = .ok o')
    {k : Nat} (hk : k + around.length = 3 + 8 * n)
    (hD : ∀ p m, (p, m) ∈ (placesIn around c).zipIdx n → chosen m = true →
      D (p.guardRow m .update)) :
    AgreeExcept D k (o.print around.length) (o'.print around.length) := by
  match c with
  | ⟨name, documentId, schema, access, preventsLockout, children⟩ =>
      rw [allowLockoutIn_eq] at ho'
      rw [placesIn, List.zipIdx_cons] at hD
      obtain ⟨hpath, hcheck, hguard⟩ := outline_congr ho ho' rfl rfl rfl
      have hrow : ∀ op, ¬D (k + 2 + Operation.every.idxOf op) → o'.guard op = o.guard op := by
        intro op hop
        refine hguard op fun hupdate => ?_
        -- the guard for updates could only differ in a chosen place
        have hunchosen : chosen n = false := by
          rw [← Bool.not_eq_true]
          intro hchosen
          have hat : k + 2 = 3 + 8 * n - around.length + 2 := by omega
          rw [hupdate, hat] at hop
          exact hop (hD _ n List.mem_cons_self hchosen)
        show (preventsLockout && !chosen n) = preventsLockout
        rw [hunchosen]
        exact Bool.and_true _
      have hchildren := agree_printAll
        (around ++ [⟨name, documentId, schema, access, preventsLockout, children⟩])
        (outlineAll_children ho) (outlineAll_children ho')
        (k := k + 7) (by simp only [List.length_append, List.length_singleton]; omega)
        fun p m hp => hD p m (List.mem_cons_of_mem _ hp)
      rw [List.length_append, List.length_singleton] at hchildren
      rw [Outline.print_eq, Outline.print_eq]
      exact (agree_head hpath hcheck hrow _).append (hchildren.append (agreeExcept_refl _))

theorem agree_printAll (around : List Collection) {collections : List Collection}
    {forest forest' : List Outline} (h : outlineAll collections = .ok forest) {n : Nat}
    (h' : outlineAll (allowLockoutInAll chosen n collections) = .ok forest')
    {k : Nat} (hk : k + around.length = 3 + 8 * n)
    (hD : ∀ p m, (p, m) ∈ (placesInAll around collections).zipIdx n → chosen m = true →
      D (p.guardRow m .update)) :
    AgreeExcept D k (Outline.printAll around.length forest)
      (Outline.printAll around.length forest') := by
  match collections with
  | [] =>
      cases h
      cases h'
      exact agreeExcept_refl _
  | c :: collections =>
      rw [allowLockoutInAll] at h'
      obtain ⟨o, rest, ho, hrest, rfl⟩ := outlineAll_cons_eq_ok.1 h
      obtain ⟨o', rest', ho', hrest', rfl⟩ := outlineAll_cons_eq_ok.1 h'
      rw [placesInAll, List.zipIdx_append] at hD
      -- allowing lockouts removes no place, so the numbers of the later ones stay
      rw [length_placesIn [] around] at hrest'
      have hrows := length_print_of_outline around ho around.length
      have hfirst := agree_print around ho ho' hk
        fun p m hp => hD p m (List.mem_append_left _ hp)
      have hlater := agree_printAll around hrest hrest'
        (k := k + (o.print around.length).length) (by omega)
        fun p m hp => hD p m (List.mem_append_right _ hp)
      rw [Outline.printAll, Outline.printAll]
      exact hfirst.append hlater

end

mutual

/-- **The places stay.** In each stands what stood there, with lockouts allowed
from its number on. -/
theorem exists_mem_placesIn_allowLockoutIn {around around' : List Collection}
    (hlen : around'.length = around.length) {c : Collection} {n : Nat} {p : Place} {m : Nat}
    (hp : (p, m) ∈ (placesIn around c).zipIdx n) :
    ∃ above : List Collection, above.length = p.around.length
      ∧ (⟨above, allowLockoutIn chosen m p.collection⟩, m)
        ∈ (placesIn around' (allowLockoutIn chosen n c)).zipIdx n := by
  match c with
  | ⟨name, documentId, schema, access, preventsLockout, children⟩ =>
      rw [placesIn, List.zipIdx_cons] at hp
      rcases List.mem_cons.1 hp with hself | hchild
      · -- the collection itself keeps its number
        cases hself
        refine ⟨around', hlen, ?_⟩
        rw [allowLockoutIn_eq, placesIn, List.zipIdx_cons]
        exact List.mem_cons_self
      · have hnested : ∀ c d : Collection, (around' ++ [d]).length = (around ++ [c]).length := by
          intro c d
          rw [List.length_append, List.length_append, hlen]
          rfl
        obtain ⟨above, habove, hmem⟩ :=
          exists_mem_placesInAll_allowLockoutInAll (hnested _ _) hchild
        rw [allowLockoutIn_eq, placesIn, List.zipIdx_cons]
        exact ⟨above, habove, List.mem_cons_of_mem _ hmem⟩

theorem exists_mem_placesInAll_allowLockoutInAll {around around' : List Collection}
    (hlen : around'.length = around.length) {collections : List Collection} {n : Nat}
    {p : Place} {m : Nat} (hp : (p, m) ∈ (placesInAll around collections).zipIdx n) :
    ∃ above : List Collection, above.length = p.around.length
      ∧ (⟨above, allowLockoutIn chosen m p.collection⟩, m)
        ∈ (placesInAll around' (allowLockoutInAll chosen n collections)).zipIdx n := by
  match collections with
  | [] => exact absurd hp List.not_mem_nil
  | c :: collections =>
      rw [placesInAll, List.zipIdx_append] at hp
      rw [allowLockoutInAll, placesInAll, List.zipIdx_append,
        length_placesIn_allowLockoutIn around, length_placesIn [] around]
      rcases List.mem_append.1 hp with hfirst | hlater
      · obtain ⟨above, habove, hmem⟩ := exists_mem_placesIn_allowLockoutIn hlen hfirst
        exact ⟨above, habove, List.mem_append_left _ hmem⟩
      · obtain ⟨above, habove, hmem⟩ := exists_mem_placesInAll_allowLockoutInAll hlen hlater
        exact ⟨above, habove, List.mem_append_right _ hmem⟩

end

end Collection

/-! ## §5. Rulesets. -/

namespace Ruleset

/-- The ruleset with lockouts allowed in the chosen places. -/
def allowLockoutAt (r : Ruleset) (chosen : Nat → Bool) : Ruleset :=
  { r with collections := Collection.allowLockoutInAll chosen 0 r.collections }

variable {r : Ruleset} {chosen : Nat → Bool}

/-- The blocks of a ruleset fail as before. -/
theorem faultOf_collectionBlocks_allowLockoutInAll (n : Nat) (collections : List Collection) :
    faultOf (collectionBlocks (Collection.allowLockoutInAll chosen n collections))
      = faultOf (collectionBlocks collections) := by
  induction collections generalizing n with
  | nil => rfl
  | cons c collections ih =>
      rw [Collection.allowLockoutInAll, collectionBlocks, collectionBlocks, faultOf_bind_bind,
        faultOf_bind_bind, Collection.faultOf_block_allowLockoutIn, ih]

/-- The fault of the ruleset stays. -/
theorem faultOf_render_allowLockoutAt : faultOf (r.allowLockoutAt chosen).render
    = faultOf r.render := by
  unfold render lines
  rw [faultOf_map, faultOf_map, faultOf_bind_pure, faultOf_bind_pure]
  exact faultOf_collectionBlocks_allowLockoutInAll 0 r.collections

variable {lines opened : List Line}

/-- Whether a row guards updates in a chosen place. -/
def GuardsChosenUpdate (r : Ruleset) (chosen : Nat → Bool) (row : Nat) : Prop :=
  ∃ p n, (p, n) ∈ r.places.zipIdx ∧ chosen n = true ∧ row = p.guardRow n .update

/-- The rows of the ruleset stay, but for those that guard updates in the chosen
places. -/
theorem agree_listing (hlines : r.lines = .ok lines)
    (hopened : (r.allowLockoutAt chosen).lines = .ok opened) :
    AgreeExcept (r.GuardsChosenUpdate chosen) 0 (listing lines) (listing opened) := by
  obtain ⟨forest, hforest, hframe⟩ := exists_lines_iff.1 ⟨lines, hlines, rfl⟩
  obtain ⟨forest', hforest', hframe'⟩ := exists_lines_iff.1 ⟨opened, hopened, rfl⟩
  have hbody := Collection.agree_printAll (D := r.GuardsChosenUpdate chosen) [] hforest hforest'
    (k := 3) rfl fun p n hp hn => ⟨p, n, hp, hn, rfl⟩
  rw [← hframe, ← hframe']
  exact ((agreeExcept_refl _).append hbody).append (agreeExcept_refl _)

/-- How the guard for updates in a chosen place reads, before and after. -/
theorem exists_updateRow (hlines : r.lines = .ok lines)
    (hopened : (r.allowLockoutAt chosen).lines = .ok opened) {p : Collection.Place} {n : Nat}
    (hp : (p, n) ∈ r.places.zipIdx) (hn : chosen n = true)
    (hprevents : p.collection.preventsLockout = true) :
    ∃ before after,
      (p.collection.access .update).renderIn ⟨storedDocument, none⟩ = .ok before
        ∧ (p.collection.access .update).renderIn ⟨incomingDocument, none⟩ = .ok after
        ∧ (listing lines)[p.guardRow n .update]?
          = some (spaces (2 * (p.around.length + 3)) ++ allowLine .update
            ("(isValidSchema(request.resource.data) && " ++ before ++ " && " ++ after ++ ")"))
        ∧ (listing opened)[p.guardRow n .update]?
          = some (spaces (2 * (p.around.length + 3)) ++ allowLine .update
            ("(isValidSchema(request.resource.data) && " ++ before ++ ")")) := by
  -- the guard before: two clauses of access behind the schema
  obtain ⟨guard, hguard, hrow⟩ := getElem?_guardRow hlines hp .update
  rw [Collection.guardText_update_of_prevented hprevents] at hguard
  obtain ⟨before, hbefore, hrest⟩ := Except.bind_eq_ok.1 hguard
  obtain ⟨after, hafter, rfl⟩ := Except.map_eq_ok.1 hrest
  refine ⟨before, after, hbefore, hafter, hrow, ?_⟩
  -- the place has the same number and depth after, so the same row
  have hmoved : ∃ above : List Collection, above.length = p.around.length
      ∧ (⟨above, Collection.allowLockoutIn chosen n p.collection⟩, n)
        ∈ (r.allowLockoutAt chosen).places.zipIdx :=
    Collection.exists_mem_placesInAll_allowLockoutInAll rfl hp
  obtain ⟨above, habove, hplace⟩ := hmoved
  obtain ⟨guard', hguard', hrow'⟩ := getElem?_guardRow hopened hplace .update
  have hallowed : (Collection.allowLockoutIn chosen n p.collection).preventsLockout = false := by
    rw [Collection.allowLockoutIn_eq]
    show (p.collection.preventsLockout && !chosen n) = false
    rw [hn]
    exact Bool.and_false _
  -- whether lockouts are prevented is not asked for the access itself
  have htext : (Collection.allowLockoutIn chosen n p.collection).accessText .update storedDocument
      = .ok before := by
    rw [Collection.allowLockoutIn_eq]
    exact hbefore
  have hsame : Collection.Place.guardRow ⟨above, Collection.allowLockoutIn chosen n p.collection⟩ n
      .update = p.guardRow n .update := by
    unfold Collection.Place.guardRow Collection.Place.firstRow
    rw [habove]
  rw [Collection.guardText_update_of_allowed hallowed, htext] at hguard'
  rw [hsame, habove, ← Except.ok.inj hguard'] at hrow'
  exact hrow'

/-- **Allowing lockouts takes a clause away, and nothing else.** Where they are
allowed in some collections that prevented them, the ruleset fails as before,
with the same fault; and if it does not, every row stays as it is but for the
guards for updates in these collections. Of those goes the last clause, that the
document which the update leaves would allow the update as well. -/
theorem lines_allowLockoutAt (r : Ruleset) (chosen : Nat → Bool)
    (hchosen : ∀ p n, (p, n) ∈ r.places.zipIdx → chosen n = true →
      p.collection.preventsLockout = true) :
    (∀ fault, r.render = .error fault ↔ (r.allowLockoutAt chosen).render = .error fault)
      ∧ ∀ lines opened, r.lines = .ok lines → (r.allowLockoutAt chosen).lines = .ok opened →
        (listing lines).length = (listing opened).length
          ∧ (∀ row, (∀ p n, (p, n) ∈ r.places.zipIdx → chosen n = true →
              row ≠ p.guardRow n .update) → (listing lines)[row]? = (listing opened)[row]?)
          ∧ ∀ p n, (p, n) ∈ r.places.zipIdx → chosen n = true → ∃ before after,
            (p.collection.access .update).renderIn ⟨storedDocument, none⟩ = .ok before
              ∧ (p.collection.access .update).renderIn ⟨incomingDocument, none⟩ = .ok after
              ∧ (listing lines)[p.guardRow n .update]?
                = some (spaces (2 * (p.around.length + 3)) ++ allowLine .update
                  ("(isValidSchema(request.resource.data) && " ++ before ++ " && " ++ after
                    ++ ")"))
              ∧ (listing opened)[p.guardRow n .update]?
                = some (spaces (2 * (p.around.length + 3)) ++ allowLine .update
                  ("(isValidSchema(request.resource.data) && " ++ before ++ ")")) := by
  refine ⟨fun fault => ?_, fun lines opened hlines hopened => ?_⟩
  · -- the clause that goes fails only where the one before it has failed
    rw [← faultOf_eq_some, ← faultOf_eq_some, faultOf_render_allowLockoutAt]
  · obtain ⟨hlength, hrows⟩ := agree_listing hlines hopened
    refine ⟨hlength, fun row hrow => hrows row ?_,
      fun p n hp hn => exists_updateRow hlines hopened hp hn (hchosen p n hp hn)⟩
    -- rows of the body are counted from the end of the opening ones
    rintro ⟨p, n, hp, hn, hat⟩
    exact hrow p n hp hn (by rw [← hat, Nat.zero_add])

/-- Only the owner that a document names. -/
def ownerOnly : Predicate :=
  .ofCondition ⟨.field (.named "owner"), .equal, .literal "request.auth.uid"⟩

/-- Shelves which their owners may write, with books which their owners may
update, and readers. -/
def ownedShelves : Ruleset :=
  .run .empty
    [.add (.addChild (.allow (.empty "shelves" "shelf") .write ownerOnly)
      (.allow (.empty "books" "book") (.only .update) ownerOnly)),
      .add (.empty "readers" "reader")]

theorem lines_allowLockoutAt_books :
    ∃ lines opened, ownedShelves.lines = .ok lines
      ∧ (ownedShelves.allowLockoutAt (· == 1)).lines = .ok opened
      ∧ (listing lines)[7]? = (listing opened)[7]?
      ∧ (listing lines)[14]?
        = some ("        allow update: if (isValidSchema(request.resource.data)"
          ++ " && resource.data.owner == request.auth.uid"
          ++ " && request.resource.data.owner == request.auth.uid);")
      ∧ (listing opened)[14]?
        = some ("        allow update: if (isValidSchema(request.resource.data)"
          ++ " && resource.data.owner == request.auth.uid);") := by
  have hprevents : ownedShelves.places.all (fun p => p.collection.preventsLockout) = true := by
    decide +kernel
  have hother : ownedShelves.places.zipIdx.all
      (fun q => !(q.2 == 1) || q.1.guardRow q.2 .update != 7) = true := by
    decide +kernel
  have hsound : faultOf ownedShelves.lines = none := by decide +kernel
  obtain ⟨-, hrows⟩ := lines_allowLockoutAt ownedShelves (· == 1) fun p n hp _ =>
    List.all_eq_true.1 hprevents p (List.fst_mem_of_mem_zipIdx hp)
  obtain ⟨lines, hlines⟩ := faultOf_eq_none.1 hsound
  have hsoundOpened : faultOf (ownedShelves.allowLockoutAt (· == 1)).lines = none := by
    decide +kernel
  obtain ⟨opened, hopened⟩ := faultOf_eq_none.1 hsoundOpened
  obtain ⟨-, hstay, hchange⟩ := hrows lines opened hlines hopened
  have hbooks : ((⟨ownedShelves.collections.take 1,
      .allow (.empty "books" "book") (.only .update) ownerOnly⟩ : Collection.Place), 1)
      ∈ ownedShelves.places.zipIdx :=
    List.mem_cons_of_mem _ List.mem_cons_self
  obtain ⟨before, after, hbefore, hafter, hrow, hrow'⟩ := hchange _ 1 hbooks rfl
  have hstored : ownerOnly.renderIn ⟨storedDocument, none⟩
      = .ok "resource.data.owner == request.auth.uid" := by rfl
  have hincoming : ownerOnly.renderIn ⟨incomingDocument, none⟩
      = .ok "request.resource.data.owner == request.auth.uid" := by rfl
  obtain rfl := Except.ok.inj (hstored.symm.trans hbefore)
  obtain rfl := Except.ok.inj (hincoming.symm.trans hafter)
  refine ⟨lines, opened, hlines, hopened, hstay 7 fun p n hp hn heq => ?_, hrow, hrow'⟩
  have hrow7 := List.all_eq_true.1 hother (p, n) hp
  simp [hn, ← heq] at hrow7

end Ruleset

end SecurityRules
