/-
  SecurityRules.Proofs.Collection.Built
  ────────────────────────────────
  **RULESETS BUILT FROM PREDICATES THAT WERE READ.**

  `Built` is what can be reached step by step from nothing, with no predicates
  but those that hold always or never and those that were read from the
  shorthand, and with no choice between no validators.  Reading lets no blank
  literal, no empty name and no empty junction through, so nothing of the kind
  can turn up later, however the pieces are put together.  What remains is a
  predicate that mentions `this` as the predicate of a whole collection, which
  no field owns.

    * `Schema.Built.meets` — a built schema can be built for every document;
    * `Collection.Built.parts` — what a built collection consists of is built;
    * `Collection.Built.faultAt_eq_some`, `Collection.Built.isFaulty_iff` — with
      which fault a built collection fails, and when.

  Main statement: `Ruleset.render_of_built`.
-/
import SecurityRules.Schema.Validator
import SecurityRules.Proofs.Schema.Buildable
import SecurityRules.Proofs.Collection.FirstFault

namespace SecurityRules

/-! ## §1. What can be built. -/

/-- Whether a predicate holds always or never, or was read from the
shorthand. -/
inductive Predicate.Given : Predicate → Prop where
  | allow : Given .allow
  | deny : Given .deny
  | read {p : Predicate} (text : String) (h : Predicate.parse text = .ok p) : Given p

/-- The ready-made validators with a predicate that has to hold besides, or
with none. -/
def Validator.library (rule : Option Predicate) : List Validator :=
  [string rule, number rule, boolean rule, timestamp rule, path rule, uncheckedList rule,
    nullable rule]

mutual

/-- Whether a schema is built from nothing by declaring built members and taking
over those of built schemas. -/
inductive Schema.Built : Schema → Prop where
  | empty : Schema.Built .empty
  | declare {s : Schema} {m : Member} (hs : Schema.Built s) (hm : Member.Built m) :
      Schema.Built (s.declare m)
  | extend {s other : Schema} (hs : Schema.Built s) (hother : Schema.Built other) :
      Schema.Built (s.extend other)

/-- Whether a member is a built field or is checked by a built validator. -/
inductive Member.Built : Member → Prop where
  | field {f : Field} (hf : Field.Built f) : Member.Built (.field f)
  | checked {v : Validator} (name : String) (optional : Bool) (hv : Validator.Built v) :
      Member.Built (.checked name optional v)

/-- Whether a field is built from one that accepts nothing, kind by kind. The
element of a list is built as a field of its own. -/
inductive Field.Built : Field → Prop where
  | empty (name : String) : Field.Built (.empty name)
  | allowAbsent {f : Field} (hf : Field.Built f) : Field.Built f.allowAbsent
  | plain {f : Field} (kind : Kind) (hf : Field.Built f) : Field.Built (f.accept (.plain kind))
  | oneOf {f : Field} (values : List Value) (hf : Field.Built f) :
      Field.Built (f.accept (.oneOf values))
  | listOf {f element : Field} (hf : Field.Built f) (helement : Field.Built element) :
      Field.Built (f.accept (.listOf element.assertions))
  | mapOf {f : Field} {s : Schema} (hf : Field.Built f) (hs : Schema.Built s) :
      Field.Built (f.accept (.mapOf s))
  | restrict {f : Field} {p : Predicate} (kind : Kind) (hf : Field.Built f) (hp : p.Given) :
      Field.Built (f.restrict kind p)

/-- Whether a validator is ready-made, or put together from built ones. -/
inductive Validator.Built : Validator → Prop where
  | readyMade {v : Validator} {rule : Option Predicate} (hv : v ∈ Validator.library rule)
      (hrule : ∀ p ∈ rule, p.Given) : Validator.Built v
  | oneOf {rule : Option Predicate} (values : List Value) (hrule : ∀ p ∈ rule, p.Given) :
      Validator.Built (.oneOf values rule)
  | map {rule : Option Predicate} {s : Schema} (hrule : ∀ p ∈ rule, p.Given)
      (hs : Schema.Built s) : Validator.Built (.map rule s)
  | anyOf {validators : List Validator} (hne : validators ≠ [])
      (hv : ∀ v ∈ validators, Validator.Built v) : Validator.Built (.anyOf validators)

end

/-- Whether a collection is built from nothing, step by step. -/
inductive Collection.Built : Collection → Prop where
  | empty (name documentId : String) : Built (.empty name documentId)
  | declare {c : Collection} {m : Member} (hc : Built c) (hm : m.Built) : Built (c.declare m)
  | extend {c : Collection} {s : Schema} (hc : Built c) (hs : s.Built) : Built (c.extend s)
  | addChild {c child : Collection} (hc : Built c) (hchild : Built child) :
      Built (c.addChild child)
  | allow {c : Collection} {p : Predicate} (permission : Permission) (hc : Built c) (hp : p.Given) :
      Built (c.allow permission p)
  | allowLockout {c : Collection} (hc : Built c) : Built c.allowLockout

/-- Whether a ruleset is built from nothing, step by step. -/
inductive Ruleset.Built : Ruleset → Prop where
  | empty : Built .empty
  | database {r : Ruleset} (id : String) (hr : Built r) : Built (r.apply (.database id))
  | add {r : Ruleset} {c : Collection} (hr : Built r) (hc : c.Built) : Built (r.apply (.add c))

/-! ## §2. Schemas. -/

/-- What is given can be told from its shorthand. -/
theorem Predicate.Given.printable {p : Predicate} (h : p.Given) : p.Printable := by
  cases h with
  | allow => exact .node (Nat.le_refl 1) (List.forall_mem_singleton.2 (.leaf (by decide +kernel)))
  | deny => exact .node (Nat.le_refl 1) (List.forall_mem_singleton.2 (.leaf (by decide +kernel)))
  | read text hparse =>
      -- a single clause that was read becomes a junction of one term
      obtain ⟨t, ht, rfl⟩ := Predicate.exists_term_of_parse hparse
      exact (ht.mono (fun _ hc => hc) (by decide : 1 ≤ 2)).toJunction (Nat.le_refl 1)

/-- The validators that are there ready-made are buildable with any predicate
that is given. -/
theorem Validator.buildable_of_mem_library {v : Validator} {rule : Option Predicate}
    (hv : v ∈ Validator.library rule) (hrule : ∀ p ∈ rule, p.Given) : v.Meets .buildable := by
  have hprintable : ExtraPrintable rule := fun p hp => (hrule p hp).printable
  have hspelled : ∀ {op : Operator} {word : String}, Shorthand.IsLiteral word →
      Validator.Meets .buildable (.check ⟨.field .this, op, .literal word⟩ rule) :=
    fun hword => ⟨Clause.wellSpelled_this _ hword, hprintable⟩
  simp only [library, List.mem_cons, List.not_mem_nil, or_false] at hv
  rcases hv with rfl | rfl | rfl | rfl | rfl | rfl | rfl <;> exact hspelled (by decide +kernel)

/-- Each step in building a field leaves it buildable. -/
theorem Field.buildable_allowAbsent {f : Field} (hf : f.Meets .buildable) :
    f.allowAbsent.Meets .buildable := by
  have hstep : Field.Step.Keeps .buildable .allowAbsent := trivial
  exact Field.meets_apply hf hstep

theorem Field.buildable_accept {f : Field} {shape : Shape} (hf : f.Meets .buildable)
    (hshape : shape.Meets .buildable) : (f.accept shape).Meets .buildable := by
  have hnone : ExtraPrintable none := fun p hp => nomatch hp
  have hstep : Field.Step.Keeps .buildable (.accept shape) := ⟨hnone, hshape⟩
  exact Field.meets_apply hf hstep

theorem Field.buildable_restrict {f : Field} {p : Predicate} (kind : Kind)
    (hf : f.Meets .buildable) (hp : p.Printable) : (f.restrict kind p).Meets .buildable := by
  have hsome : ExtraPrintable (some p) := fun q hq => Option.mem_some.1 hq ▸ hp
  have hstep : Field.Step.Keeps .buildable (.restrict kind p) := ⟨hsome, fun _ _ => hsome⟩
  exact Field.meets_apply hf hstep

mutual

/-- **A built schema can be built for every document.** -/
theorem Schema.Built.meets {s : Schema} (h : s.Built) : s.Meets .buildable := by
  match h with
  | .empty => exact trivial
  | .declare hs hm => exact Schema.meets_declare hs.meets hm.meets
  | .extend hs hother => exact Schema.meets_extend hs.meets hother.meets

/-- A member is a field or a validator under a key. -/
theorem Member.Built.meets {m : Member} (h : m.Built) : m.Meets .buildable := by
  match h with
  | .field hf => exact ⟨trivial, hf.meets⟩
  | .checked _ _ hv => exact ⟨trivial, hv.meets⟩

/-- A field stays buildable along its steps. -/
theorem Field.Built.meets {f : Field} (h : f.Built) : f.Meets .buildable := by
  match h with
  | .empty name => exact trivial
  | .allowAbsent hf => exact Field.buildable_allowAbsent hf.meets
  | .plain kind hf => exact Field.buildable_accept hf.meets trivial
  | .oneOf values hf => exact Field.buildable_accept hf.meets trivial
  | .listOf hf helement =>
      have hall := Assertion.allMeet_iff.2 (Field.meets_iff.1 helement.meets)
      exact Field.buildable_accept hf.meets hall
  | .mapOf hf hs => exact Field.buildable_accept hf.meets hs.meets
  | .restrict kind hf hp => exact Field.buildable_restrict kind hf.meets hp.printable

/-- A validator is a ready-made one, an enumeration, a map with a schema, or a
choice between some that were built. -/
theorem Validator.Built.meets {v : Validator} (h : v.Built) : v.Meets .buildable := by
  match h with
  | .readyMade hv hrule => exact Validator.buildable_of_mem_library hv hrule
  | .oneOf values hrule => exact fun p hp => (hrule p hp).printable
  | .map hrule hs => exact ⟨fun p hp => (hrule p hp).printable, hs.meets⟩
  | .anyOf hne hv => exact ⟨hne, Validator.allMeet_iff.2 fun v hmem => (hv v hmem).meets⟩

end

/-! ## §3. Collections. -/

namespace Collection

/-- What a built collection consists of is built. -/
theorem Built.parts {c : Collection} (h : c.Built) :
    c.schema.Built ∧ (∀ op, (c.access op).Given) ∧ ∀ child ∈ c.children, child.Built := by
  induction h with
  | empty name documentId => exact ⟨.empty, fun _ => .deny, List.forall_mem_nil _⟩
  | declare _ hm ih => exact ⟨ih.1.declare hm, ih.2⟩
  | extend _ hs ih => exact ⟨ih.1.extend hs, ih.2⟩
  | addChild _ hchild ih _ =>
      obtain ⟨hschema, haccess, hchildren⟩ := ih
      exact ⟨hschema, haccess,
        List.forall_mem_append.2 ⟨hchildren, List.forall_mem_singleton.2 hchild⟩⟩
  | allow permission _ hp ih =>
      -- an operation keeps its predicate or gets the new one
      obtain ⟨hschema, haccess, hchildren⟩ := ih
      refine ⟨hschema, fun op => ?_, hchildren⟩
      rw [access_allow]
      split
      · exact hp
      · exact haccess op
  | allowLockout _ ih => exact ih

mutual

/-- What stands in a collection that was built was built. -/
theorem Built.of_mem_placesIn (around : List Collection) {c : Collection} (h : c.Built) :
    ∀ p ∈ placesIn around c, p.collection.Built := by
  match c with
  | ⟨name, documentId, schema, access, preventsLockout, children⟩ =>
      rw [placesIn]
      exact List.forall_mem_cons.2 ⟨h, Built.of_mem_placesInAll _ children h.parts.2.2⟩

/-- So was what stands in collections side by side. -/
theorem Built.of_mem_placesInAll (around : List Collection) (collections : List Collection)
    (h : ∀ c ∈ collections, c.Built) :
    ∀ p ∈ placesInAll around collections, p.collection.Built := by
  match collections with
  | [] => exact List.forall_mem_nil _
  | c :: collections =>
      obtain ⟨hc, hrest⟩ := List.forall_mem_cons.1 h
      rw [placesInAll]
      exact List.forall_mem_append.2
        ⟨Built.of_mem_placesIn around hc, Built.of_mem_placesInAll around collections hrest⟩

end

/-- The guard of an operation fails with the fault of its predicate, which no
field owns. -/
theorem Built.faultOf_guard {c : Collection} (h : c.Built) (op : Operation) :
    faultOf (c.guard op)
      = if (c.access op).mentionsThis then some .unboundThis else none := by
  have hin : ∀ op document, faultOf (c.accessIn op document)
      = if (c.access op).mentionsThis then some .unboundThis else none := by
    intro op document
    rw [accessIn, Predicate.faultOf_resolve_of_printable (h.parts.2.1 op).printable, Scope.unbound,
      Option.isNone_none, Bool.and_true]
  cases op with
  | create => rw [guard, faultOf_bind_pure, hin]
  | update =>
      rw [guard]
      cases c.preventsLockout with
      | false => exact (faultOf_bind_pure _ _).trans (hin _ _)
      | true =>
          -- both documents leave the same fault
          refine (faultOf_bind_bind _ _ _).trans ?_
          rw [hin, hin, Option.or_self]
  | get | list | delete => exact hin _ _

theorem isBlank_meetsSchema (document : String) : Text.isBlank (meetsSchema document) = false := by
  have hname : Text.isBlank "isValidSchema(" = false := by decide +kernel
  unfold meetsSchema
  simp only [Text.isBlank_append, hname, Bool.false_and]

/-- A guard that is there has a text. -/
theorem Built.speaks_of_guard {c : Collection} (h : c.Built) {op : Operation} {rule : Rule}
    (hrule : c.guard op = .ok rule) : rule.toFormula.Speaks := by
  have hin : ∀ {op document rule}, c.accessIn op document = .ok rule → rule.toFormula.Speaks :=
    fun hrule => Predicate.speaks_of_resolve (h.parts.2.1 _).printable hrule
  have hmeets : (Formula.text (meetsSchema incomingDocument)).Speaks :=
    speaks_text (isBlank_meetsSchema _)
  -- the schema speaks in every guard that asks for it, whatever the access becomes
  cases op with
  | create =>
      obtain ⟨own, hown, hpair⟩ := Except.bind_eq_ok.1 hrule
      cases hpair
      refine .node (by decide : 1 ≤ 2) (List.forall_mem_cons.2 ⟨hin hown, ?_⟩)
      exact List.forall_mem_singleton.2 hmeets
  | update =>
      obtain ⟨before, hbefore, hrest⟩ := Except.bind_eq_ok.1 hrule
      have hpair : (Junction.toFormula
          ⟨.all, [.text (meetsSchema incomingDocument), before.toFormula]⟩).Speaks :=
        .node (by decide : 1 ≤ 2)
          (List.forall_mem_cons.2 ⟨hmeets, List.forall_mem_singleton.2 (hin hbefore)⟩)
      cases hprevents : c.preventsLockout with
      | false =>
          rw [if_neg (Bool.eq_false_iff.1 hprevents)] at hrest
          cases hrest
          exact hpair
      | true =>
          rw [if_pos hprevents] at hrest
          obtain ⟨after, hafter, htriple⟩ := Except.bind_eq_ok.1 hrest
          cases htriple
          -- the clause against lockouts goes behind the other two
          exact hpair.push (hin hafter)
  | get | list | delete => exact hin hrule

/-- The schema of a collection that was built can be built into a rule. -/
theorem Built.faultOf_schemaRule {c : Collection} (h : c.Built) : faultOf c.schemaRule = none := by
  obtain ⟨rule, hrule, -⟩ := Schema.exists_rule schemaParameter c.schema h.parts.1.meets
  exact faultOf_eq_none.2 ⟨rule, hrule⟩

/-- That rule has a text. -/
theorem Built.faultOf_schemaText {c : Collection} (h : c.Built) : faultOf c.schemaText = none := by
  obtain ⟨rule, hrule, hspeaks⟩ := Schema.exists_rule schemaParameter c.schema h.parts.1.meets
  obtain ⟨text, htext⟩ := Rule.exists_render hspeaks
  exact faultOf_eq_none.2 ⟨text, Except.bind_eq_ok.2 ⟨rule, hrule, htext⟩⟩

/-- A guard that is there has a text: it speaks. -/
theorem Built.faultOf_guardText {c : Collection} (h : c.Built) (op : Operation) :
    faultOf (c.guardText op) = faultOf (c.guard op) :=
  faultOf_bind_of_ok fun _ hrule => Rule.exists_render (h.speaks_of_guard hrule)

/-- A stage of a built collection only fails where the predicate of an operation
mentions `this`. -/
theorem Built.faultAt_eq_some {c : Collection} (h : c.Built) {stage : Stage} {fault : Fault}
    (hfault : c.faultAt stage = some fault) :
    fault = .unboundThis ∧ ∃ op, (c.access op).mentionsThis = true := by
  have hguard : ∀ op, faultOf (c.guard op) = some fault →
      fault = .unboundThis ∧ ∃ op, (c.access op).mentionsThis = true := by
    intro op hop
    rw [h.faultOf_guard] at hop
    split at hop
    · next hmentions =>
        cases hop
        exact ⟨rfl, op, hmentions⟩
    · cases hop
  cases stage with
  | schemaRule => cases h.faultOf_schemaRule.symm.trans hfault
  | schemaText => cases h.faultOf_schemaText.symm.trans hfault
  | guard op => exact hguard op hfault
  | guardText op => exact hguard op ((h.faultOf_guardText op).symm.trans hfault)

/-- **A built collection is faulty when the predicate of an operation mentions
`this`.** -/
theorem Built.isFaulty_iff {c : Collection} (h : c.Built) :
    c.IsFaulty ↔ ∃ op, (c.access op).mentionsThis = true := by
  constructor
  · rintro ⟨stage, fault, hfault⟩
    exact (h.faultAt_eq_some hfault).2
  · rintro ⟨op, hmentions⟩
    refine ⟨.guard op, .unboundThis, ?_⟩
    show faultOf (c.guard op) = _
    rw [h.faultOf_guard, if_pos hmentions]

/-- The paths around a fault do not change its cause. -/
theorem cause_wrapIn (path : List Collection) (fault : Fault) :
    (wrapIn path fault).cause = fault.cause := by
  induction path with
  | nil => rfl
  | cons c path ih => exact ih

end Collection

/-! ## §4. Rulesets. -/

namespace Ruleset

/-- What stands in a ruleset that was built was built. -/
theorem Built.of_mem_places {r : Ruleset} (h : r.Built) : ∀ p ∈ r.places, p.collection.Built := by
  refine Collection.Built.of_mem_placesInAll [] r.collections ?_
  induction h with
  | empty => exact List.forall_mem_nil _
  | database id _ ih => exact ih
  | add _ hc ih => exact List.forall_mem_append.2 ⟨ih, List.forall_mem_singleton.2 hc⟩

/-- **A ruleset built from predicates that were read has a text**, unless the
predicate of an operation, of whatever collection, mentions `this`. Then this is
the cause of the fault. -/
theorem render_of_built {r : Ruleset} (h : r.Built) :
    ((∃ text, r.render = .ok text)
        ↔ ∀ p ∈ r.places, ∀ op, (p.collection.access op).mentionsThis = false)
      ∧ ∀ fault, r.render = .error fault → fault.cause = .unboundThis := by
  have hrender : faultOf r.render = r.places.findSome? Collection.Place.blame := by
    rw [render, faultOf_map, faultOf_lines]
  constructor
  · rw [← faultOf_eq_none, hrender, List.findSome?_eq_none_iff]
    refine forall₂_congr fun p hp => ?_
    rw [Collection.Place.blame, Option.map_eq_none_iff, Collection.firstFault_eq_none,
      (h.of_mem_places p hp).isFaulty_iff]
    simp only [not_exists, Bool.not_eq_true]
  · intro fault hfault
    rw [← faultOf_eq_some, hrender] at hfault
    obtain ⟨p, hp, hblame⟩ := List.exists_of_findSome?_eq_some hfault
    obtain ⟨own, hown, rfl⟩ := Option.map_eq_some_iff.1 hblame
    obtain ⟨stage, -, hstage⟩ := List.exists_of_findSome?_eq_some hown
    obtain ⟨rfl, -⟩ := (h.of_mem_places p hp).faultAt_eq_some hstage
    exact Collection.cause_wrapIn _ _

end Ruleset

/-- That a room is open or that its owner is an administrator. -/
def Predicate.openToReaders : Predicate :=
  ⟨.any, [.leaf (.condition ⟨.lookup (.named "owner") "role", .equal, .literal "\"admin\""⟩),
    .leaf (.condition ⟨.field (.named "open"), .equal, .literal "true"⟩)]⟩

/-- That there is a text, by an author whom only an owning field could name. -/
def Predicate.byAuthor : Predicate :=
  ⟨.all, [.leaf (.condition ⟨.field (.named "text"), .ofType, .literal "string"⟩),
    .leaf (.condition ⟨.lookup .this "author", .equal, .literal "request.auth.uid"⟩)]⟩

/-- That a value is not the owner. -/
def Predicate.notOwner : Predicate :=
  ⟨.all, [.leaf (.condition ⟨.field .this, .notEqual, .field (.named "owner")⟩)]⟩

/-- A list of members other than the owner, which may be left out. -/
def Field.members : Field :=
  ((empty "members").accept
    (.listOf ((empty "").restrict .string .notOwner).assertions)).allowAbsent

/-- A place: null, or a map with one key of which nothing is known. -/
def Validator.place : Validator :=
  .anyOf [.nullable none, .map (some .notOwner) (Schema.empty.declare (.field (.empty "x")))]

/-- Messages that may be created where a predicate holds. -/
def Collection.messages (create : Predicate) : Collection :=
  (empty "messages" "message").allow (.only .create) create

/-- Rooms with such messages below them. -/
def Collection.room (create : Predicate) : Collection :=
  ((((empty "rooms" "room").declare (.field .members)).declare
    (.checked "place" true .place)).allow .read .openToReaders).addChild (messages create)

/-- The rules for such rooms. -/
def Ruleset.rooms (create : Predicate) : Ruleset :=
  empty.apply (.add (.room create))

theorem Ruleset.render_rooms :
    (rooms .allow).Built ∧ (∃ text, (rooms .allow).render = .ok text)
      ∧ (rooms .byAuthor).Built
      ∧ ∃ fault, (rooms .byAuthor).render = .error fault ∧ fault.cause = .unboundThis := by
  have hreaders : Predicate.openToReaders.Given :=
    .read "@owner.role == \"admin\" OR $open == true"
      (Except.eq_ok_of_toOption (by decide +kernel))
  have hauthor : Predicate.byAuthor.Given :=
    .read "$text is string AND @this.author == request.auth.uid"
      (Except.eq_ok_of_toOption (by decide +kernel))
  have howner : Predicate.notOwner.Given :=
    .read "$this != $owner" (Except.eq_ok_of_toOption (by decide +kernel))
  have hmembers : Field.members.Built :=
    .allowAbsent (.listOf (.empty _) (.restrict _ (.empty _) howner))
  have hlibrary : Validator.nullable none ∈ Validator.library none :=
    List.mem_append_right (Validator.library none).dropLast (List.mem_singleton.2 rfl)
  have hnullable : (Validator.nullable none).Built :=
    .readyMade hlibrary fun p hp => nomatch hp
  have hmap : Validator.Built
      (.map (some .notOwner) (Schema.empty.declare (.field (.empty "x")))) :=
    .map (fun p hp => Option.mem_some.1 hp ▸ howner) (.declare .empty (.field (.empty _)))
  have hplace : Validator.place.Built :=
    .anyOf (List.cons_ne_nil _ _)
      (List.forall_mem_cons.2 ⟨hnullable, List.forall_mem_singleton.2 hmap⟩)
  have hbuilt : ∀ {create : Predicate}, create.Given → (rooms create).Built := by
    intro create hcreate
    have hmembersIn := Collection.Built.declare (.empty "rooms" "room") (.field hmembers)
    have hplaceIn := hmembersIn.declare (.checked "place" true hplace)
    exact .add .empty (.addChild (.allow .read hplaceIn hreaders)
      (.allow (.only .create) (.empty _ _) hcreate))
  have hplaces : ∀ create, (rooms create).places
      = [⟨[], .room create⟩, ⟨[.room create], .messages create⟩] := fun _ => rfl
  refine ⟨hbuilt .allow, (render_of_built (hbuilt .allow)).1.2 ?_, hbuilt hauthor, ?_⟩
  · intro p hp op
    rw [hplaces, List.mem_cons, List.mem_singleton] at hp
    rcases hp with rfl | rfl <;> cases op <;> rfl
  · obtain ⟨hiff, hcause⟩ := render_of_built (hbuilt hauthor)
    cases hrender : (rooms .byAuthor).render with
    | error fault => exact ⟨fault, rfl, hcause fault hrender⟩
    | ok text =>
        -- the predicate for creating a message mentions `this`
        have hmessages : (⟨[.room .byAuthor], .messages .byAuthor⟩ : Collection.Place)
            ∈ (rooms .byAuthor).places := by
          rw [hplaces]
          exact List.mem_cons_of_mem _ List.mem_cons_self
        have hnone := hiff.1 ⟨text, hrender⟩ _ hmessages .create
        cases hnone

end SecurityRules
