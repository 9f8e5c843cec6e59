/-
  SecurityRules.Proofs.Collection.Grants
  ────────────────────────────────
  **WHAT A COLLECTION ALLOWS IN THE END.**

  A collection is built by steps in any order and number.  Each slot of it is
  moved by steps of one kind alone: what an operation has to meet by the grants
  that cover it, of which the last one counts; the schema by the steps that
  declare; the children by those that add one.  So an operation that no grant
  covers stays denied, whatever else is done.

    * `Collection.access_apply`, `Collection.access_run` — one step, and any
      number of them, as seen by an operation;
    * `Collection.schema_run`, `Collection.children_run`,
      `Collection.preventsLockout_run` — the other slots;
    * `Collection.guardText_of_deny` — how a guard reads that denies.

  Main statement: `Collection.access_ofSteps`.
-/
import SecurityRules.Proofs.Collection.Listing
import SecurityRules.Proofs.Collection.GuardText

namespace SecurityRules

/-! ## §1. What a step gives. -/

/-- The operations that a permission is for. -/
def Permission.operations : Permission → List Operation
  | .only operation => [operation]
  | .read => [.get, .list]
  | .write => [.create, .update, .delete]
  | .full => Operation.every

theorem Permission.covers_iff_mem (permission : Permission) (op : Operation) :
    permission.covers op = true ↔ op ∈ permission.operations := by
  cases permission with
  | only operation => cases operation <;> cases op <;> decide
  | read | write | full => cases op <;> decide

namespace Collection

/-- The predicate that a step gives to an operation, if it is a grant that
covers it. -/
def Step.grantFor (op : Operation) : Step → Option Predicate
  | .allow permission rule => if op ∈ permission.operations then some rule else none
  | _ => none

/-- What a step does to the schema, if it does anything. -/
def Step.schemaStep : Step → Option Schema.Step
  | .declare m => some (.declare m)
  | .extend schema => some (.extend schema)
  | _ => none

/-- The child that a step adds, if it adds one. -/
def Step.child : Step → Option Collection
  | .addChild child => some child
  | _ => none

/-- The last predicate that some steps give to an operation. -/
def lastGrant (op : Operation) (steps : List Step) : Option Predicate :=
  steps.reverse.findSome? (Step.grantFor op)

/-- The last grant of a sequence is that of its tail, else that of its head. -/
theorem lastGrant_cons (op : Operation) (step : Step) (steps : List Step) :
    lastGrant op (step :: steps) = (lastGrant op steps).or (step.grantFor op) := by
  unfold lastGrant
  rw [List.reverse_cons, List.findSome?_append, List.findSome?_singleton]

/-- There is no last grant exactly if no step covers the operation. -/
theorem lastGrant_eq_none {op : Operation} {steps : List Step} :
    lastGrant op steps = none ↔ ∀ step ∈ steps, step.grantFor op = none := by
  unfold lastGrant
  rw [List.findSome?_eq_none_iff]
  simp only [List.mem_reverse]

/-! ## §2. The slots of a collection, step by step. -/

/-- **One step, as seen by an operation.** -/
theorem access_apply (c : Collection) (step : Step) (op : Operation) :
    (c.apply step).access op = (step.grantFor op).getD (c.access op) := by
  cases step with
  | allow permission rule =>
      show (c.allow permission rule).access op = _
      rw [access_allow]
      rw [Step.grantFor]
      by_cases hcovers : op ∈ permission.operations
      · rw [if_pos hcovers, if_pos ((permission.covers_iff_mem op).2 hcovers)]
        rfl
      · rw [if_neg hcovers, if_neg (mt (permission.covers_iff_mem op).1 hcovers)]
        rfl
  | declare m => rfl
  | extend schema => rfl
  | addChild child => rfl
  | allowLockout => rfl

/-- **Any number of steps, as seen by an operation.** -/
theorem access_run (c : Collection) (steps : List Step) (op : Operation) :
    (c.run steps).access op = (lastGrant op steps).getD (c.access op) := by
  induction steps generalizing c with
  | nil => rfl
  | cons step steps ih =>
      show ((c.apply step).run steps).access op = _
      rw [ih, access_apply, lastGrant_cons]
      cases lastGrant op steps <;> rfl

theorem schema_apply (c : Collection) (step : Step) :
    (c.apply step).schema = c.schema.run step.schemaStep.toList := by
  cases step <;> rfl

/-- The schema after some steps is the schema after those of them that speak of
the schema. -/
theorem schema_run (c : Collection) (steps : List Step) :
    (c.run steps).schema = c.schema.run (steps.filterMap Step.schemaStep) := by
  induction steps generalizing c with
  | nil => rfl
  | cons step steps ih =>
      show ((c.apply step).run steps).schema = _
      rw [ih, schema_apply]
      unfold Schema.run
      rw [← List.foldl_append]
      cases hstep : step.schemaStep with
      | none => rw [List.filterMap_cons_none hstep]; rfl
      | some schemaStep => rw [List.filterMap_cons_some hstep]; rfl

theorem children_apply (c : Collection) (step : Step) :
    (c.apply step).children = c.children ++ step.child.toList := by
  cases step with
  | addChild child => rfl
  | declare m => exact (List.append_nil _).symm
  | extend schema => exact (List.append_nil _).symm
  | allow permission rule => exact (List.append_nil _).symm
  | allowLockout => exact (List.append_nil _).symm

/-- The collections inside are those that were there and those that the steps
add, in order. -/
theorem children_run (c : Collection) (steps : List Step) :
    (c.run steps).children = c.children ++ steps.filterMap Step.child := by
  induction steps generalizing c with
  | nil => exact (List.append_nil _).symm
  | cons step steps ih =>
      show ((c.apply step).run steps).children = _
      rw [ih, children_apply, List.append_assoc]
      cases hstep : step.child with
      | none => rw [List.filterMap_cons_none hstep]; rfl
      | some child => rw [List.filterMap_cons_some hstep]; rfl

/-- A collection prevents lockout as long as no step allows it. -/
theorem preventsLockout_run (c : Collection) (steps : List Step) :
    (c.run steps).preventsLockout = true ↔
      c.preventsLockout = true ∧ .allowLockout ∉ steps := by
  induction steps generalizing c with
  | nil => simp [run]
  | cons step steps ih =>
      show ((c.apply step).run steps).preventsLockout = true ↔ _
      rw [ih, List.mem_cons, not_or]
      cases step with
      | allowLockout => simp [apply, allowLockout]
      | declare m => simp [apply, declare]
      | extend schema => simp [apply, extend]
      | addChild child => simp [apply, addChild]
      | allow permission rule => simp [apply, allow]

/-! ## §3. Guards that deny. -/

/-- The text of a guard that denies. An update names the denial twice, unless
lockouts are allowed. -/
def deniedGuard (lockoutAllowed : Bool) : Operation → String
  | .create => "(false && isValidSchema(request.resource.data))"
  | .update =>
      if lockoutAllowed then "(isValidSchema(request.resource.data) && false)"
      else "(isValidSchema(request.resource.data) && false && false)"
  | _ => "false"

/-- The text of a guard without a grant: creating and updating still ask for the
schema, and an update that prevents lockout denies twice. -/
theorem guardText_of_deny {c : Collection} {op : Operation} (h : c.access op = .deny) :
    c.guardText op = .ok (deniedGuard (!c.preventsLockout) op) := by
  have htext : ∀ document, c.accessText op document = .ok "false" := by
    intro document
    unfold accessText
    rw [h]
    rfl
  -- the document does not matter, since nothing is read in it
  cases op with
  | get | list | delete => exact htext storedDocument
  | create =>
      have hreads : "(" ++ "false" ++ " && isValidSchema(request.resource.data))"
          = "(false && isValidSchema(request.resource.data))" := by decide +kernel
      rw [guardText_create, htext]
      exact congrArg Except.ok hreads
  | update =>
      cases hprevents : c.preventsLockout with
      | false =>
          have hreads : "(isValidSchema(request.resource.data) && " ++ "false" ++ ")"
              = "(isValidSchema(request.resource.data) && false)" := by decide +kernel
          rw [guardText_update_of_allowed hprevents, htext]
          exact congrArg Except.ok hreads
      | true =>
          have hreads : "(isValidSchema(request.resource.data) && " ++ "false" ++ " && " ++ "false"
              ++ ")" = "(isValidSchema(request.resource.data) && false && false)" := by
            decide +kernel
          rw [guardText_update_of_prevented hprevents, htext, htext]
          exact congrArg Except.ok hreads

/-- A collection built from nothing. -/
def ofSteps (name documentId : String) (steps : List Step) : Collection :=
  (empty name documentId).run steps

/-- **Denied by default, and the last grant counts.** An operation has to meet
what the last grant that covers it says; grants leave the schema and the children
alone, and nothing but grants concerns an operation. Where no grant covers it,
the guard denies, also in the listing of whatever ruleset the collection is part
of. -/
theorem access_ofSteps (name documentId : String) (steps : List Step) (op : Operation) :
    (ofSteps name documentId steps).access op = (lastGrant op steps).getD .deny
      ∧ (ofSteps name documentId steps).schema
        = Schema.run .empty (steps.filterMap Step.schemaStep)
      ∧ (ofSteps name documentId steps).children = steps.filterMap Step.child
      ∧ ((ofSteps name documentId steps).preventsLockout = true ↔ .allowLockout ∉ steps)
      ∧ ((∀ step ∈ steps, step.grantFor op = none) →
        (ofSteps name documentId steps).guardText op
            = .ok (deniedGuard (!(ofSteps name documentId steps).preventsLockout) op)
          ∧ ∀ (r : Ruleset) (lines : List Line) (p : Place) (n : Nat), r.lines = .ok lines →
              (p, n) ∈ r.places.zipIdx → p.collection = ofSteps name documentId steps →
              (listing lines)[p.guardRow n op]? = some (spaces (2 * (p.around.length + 3))
                ++ allowLine op
                  (deniedGuard (!(ofSteps name documentId steps).preventsLockout) op))) := by
  have haccess := access_run (empty name documentId) steps op
  refine ⟨haccess, schema_run _ steps, children_run _ steps, ?_, ?_⟩
  · refine (preventsLockout_run _ steps).trans ?_
    exact and_iff_right rfl
  · intro hnone
    have hdeny : (ofSteps name documentId steps).access op = .deny := by
      refine haccess.trans ?_
      rw [lastGrant_eq_none.2 hnone]
      rfl
    have htext := guardText_of_deny hdeny
    refine ⟨htext, fun r lines p n hlines hp hcollection => ?_⟩
    -- the row of the guard in any listing is put together from the text just found
    obtain ⟨guard, hguard, hrow⟩ := Ruleset.getElem?_guardRow hlines hp op
    rw [hcollection, htext] at hguard
    rw [hrow, Except.ok.inj hguard]

/-- Steps that open drafts for writing, give up to prevent lockouts, add a child
that is open, and close creation again. -/
def draftSteps : List Step :=
  [.allow .write .allow, .allowLockout, .addChild ((empty "notes" "note").allow .full .allow),
    .allow (.only .create) .deny]

/-- Drafts below users who are open in every way. -/
def draftsOfUsers : Ruleset :=
  .run .empty
    [.add (((empty "users" "user").allow .full .allow).addChild
      (ofSteps "drafts" "draft" draftSteps))]

/-- A later denial takes back one operation of a grant for all writing. -/
theorem access_drafts :
    (ofSteps "drafts" "draft" draftSteps).access .create = .deny
      ∧ (ofSteps "drafts" "draft" draftSteps).access .update = .allow
      ∧ (ofSteps "drafts" "draft" draftSteps).guardText .list = .ok "false"
      ∧ ∃ lines, draftsOfUsers.lines = .ok lines
        ∧ (listing lines)[15]? = some "        allow list: if false;" := by
  have hunnamed : ∀ step ∈ draftSteps, step.grantFor .list = none := by
    intro step hstep
    simp only [draftSteps, List.mem_cons, List.not_mem_nil, or_false] at hstep
    rcases hstep with rfl | rfl | rfl | rfl <;> rfl
  have hsound : faultOf draftsOfUsers.lines = none := by decide +kernel
  obtain ⟨lines, hlines⟩ := faultOf_eq_none.1 hsound
  have hplace : ((⟨draftsOfUsers.collections, ofSteps "drafts" "draft" draftSteps⟩ : Place), 1)
      ∈ draftsOfUsers.places.zipIdx :=
    List.mem_cons_of_mem _ List.mem_cons_self
  obtain ⟨hguard, hrow⟩ := (access_ofSteps "drafts" "draft" draftSteps .list).2.2.2.2 hunnamed
  exact ⟨(access_ofSteps "drafts" "draft" draftSteps .create).1,
    (access_ofSteps "drafts" "draft" draftSteps .update).1, hguard, lines, hlines,
    hrow _ lines _ 1 hlines hplace rfl⟩

end Collection

end SecurityRules
