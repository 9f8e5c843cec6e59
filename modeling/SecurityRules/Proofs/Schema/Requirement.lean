/-
  SecurityRules.Proofs.Schema.Requirement
  ────────────────────────────────
  **WHAT HOLDS EVERYWHERE IN A SCHEMA.**

  Many statements are about the schemas in which no piece, however deep it is
  nested, is of some kind.  A `Requirement` says what is asked of an assertion,
  of a validator and of a member by themselves; `Meets` asks it of all of them,
  also in the maps and in the lists that a schema contains.

    * `Assertion.allMeet_iff` and its kin — a list meets a requirement when its
      entries do;
    * `Field.meets_run`, `Schema.meets_run` — what is built up by steps that
      keep to a requirement meets it.
-/
import SecurityRules.Schema.Basic

namespace SecurityRules

/-- What is asked of the pieces of a schema, each by itself. -/
structure Requirement where
  assertion : Assertion → Prop := fun _ => True
  validator : Validator → Prop := fun _ => True
  member : Member → Prop := fun _ => True

/-! ## §1. Meeting a requirement. -/

mutual

/-- Whether everything in a shape is as required. -/
def Shape.Meets (R : Requirement) : Shape → Prop
  | .plain _ => True
  | .oneOf _ => True
  | .listOf element => Assertion.AllMeet R element
  | .mapOf schema => Schema.Meets R schema

/-- Whether an assertion and everything in it is as required. -/
def Assertion.Meets (R : Requirement) : Assertion → Prop
  | ⟨shape, rule⟩ => R.assertion ⟨shape, rule⟩ ∧ Shape.Meets R shape

/-- Whether some assertions are as required, with everything in them. -/
def Assertion.AllMeet (R : Requirement) : List Assertion → Prop
  | [] => True
  | a :: assertions => Assertion.Meets R a ∧ Assertion.AllMeet R assertions

/-- Whether everything in a field is as required. -/
def Field.Meets (R : Requirement) : Field → Prop
  | ⟨_, _, assertions⟩ => Assertion.AllMeet R assertions

/-- Whether a validator and everything in it is as required. -/
def Validator.Meets (R : Requirement) : Validator → Prop
  | .check condition rule => R.validator (.check condition rule)
  | .oneOf values rule => R.validator (.oneOf values rule)
  | .map rule schema => R.validator (.map rule schema) ∧ Schema.Meets R schema
  | .anyOf validators => R.validator (.anyOf validators) ∧ Validator.AllMeet R validators

/-- Whether some validators are as required, with everything in them. -/
def Validator.AllMeet (R : Requirement) : List Validator → Prop
  | [] => True
  | v :: validators => Validator.Meets R v ∧ Validator.AllMeet R validators

/-- Whether a member and everything in it is as required. -/
def Member.Meets (R : Requirement) : Member → Prop
  | .field f => R.member (.field f) ∧ Field.Meets R f
  | .checked name optional validator =>
      R.member (.checked name optional validator) ∧ Validator.Meets R validator

/-- Whether some members are as required, with everything in them. -/
def Member.AllMeet (R : Requirement) : List Member → Prop
  | [] => True
  | m :: members => Member.Meets R m ∧ Member.AllMeet R members

/-- Whether everything in a schema is as required. -/
def Schema.Meets (R : Requirement) : Schema → Prop
  | ⟨members⟩ => Member.AllMeet R members

end

variable {R : Requirement}

theorem Assertion.allMeet_iff {assertions : List Assertion} :
    Assertion.AllMeet R assertions ↔ ∀ a ∈ assertions, a.Meets R := by
  induction assertions with
  | nil => simp [Assertion.AllMeet]
  | cons a assertions ih => rw [Assertion.AllMeet, List.forall_mem_cons, ih]

theorem Validator.allMeet_iff {validators : List Validator} :
    Validator.AllMeet R validators ↔ ∀ v ∈ validators, v.Meets R := by
  induction validators with
  | nil => simp [Validator.AllMeet]
  | cons v validators ih => rw [Validator.AllMeet, List.forall_mem_cons, ih]

theorem Member.allMeet_iff {members : List Member} :
    Member.AllMeet R members ↔ ∀ m ∈ members, m.Meets R := by
  induction members with
  | nil => simp [Member.AllMeet]
  | cons m members ih => rw [Member.AllMeet, List.forall_mem_cons, ih]

theorem Assertion.meets_iff {a : Assertion} :
    a.Meets R ↔ R.assertion a ∧ a.shape.Meets R := by
  obtain ⟨shape, rule⟩ := a
  rw [Assertion.Meets]

theorem Field.meets_iff {f : Field} : f.Meets R ↔ ∀ a ∈ f.assertions, a.Meets R := by
  obtain ⟨name, optional, assertions⟩ := f
  rw [Field.Meets]
  exact Assertion.allMeet_iff

theorem Schema.meets_iff {s : Schema} : s.Meets R ↔ ∀ m ∈ s.members, m.Meets R := by
  obtain ⟨members⟩ := s
  rw [Schema.Meets]
  exact Member.allMeet_iff

/-! ## §2. Building what meets a requirement. -/

/-- Each entry behind a change was there before or comes from the change. -/
theorem Keyed.forall_mem_upsert {α κ : Type} [DecidableEq κ] {key : α → κ} {k : κ}
    {change : Option α → α} {entries : List α} {P : α → Prop} (hnew : P (change none))
    (hold : ∀ a, P a → P (change (some a))) (h : ∀ a ∈ entries, P a) :
    ∀ a ∈ Keyed.upsert key k change entries, P a := by
  induction entries with
  | nil =>
      intro a ha
      rw [List.mem_singleton.1 ha]
      exact hnew
  | cons b entries ih =>
      obtain ⟨hb, hrest⟩ := List.forall_mem_cons.1 h
      unfold Keyed.upsert
      split
      · exact List.forall_mem_cons.2 ⟨hold b hb, hrest⟩
      · exact List.forall_mem_cons.2 ⟨hb, ih hrest⟩

/-- Whether a step in building a field keeps to a requirement. -/
def Field.Step.Keeps (R : Requirement) : Field.Step → Prop
  | .allowAbsent => True
  | .accept shape => R.assertion ⟨shape, none⟩ ∧ shape.Meets R
  | .restrict kind rule =>
      R.assertion ⟨.plain kind, some rule⟩
        ∧ ∀ a : Assertion, R.assertion a → R.assertion ⟨a.shape, some rule⟩

/-- A call with parts that meet a requirement keeps a field that meets it. -/
theorem Field.meets_apply {f : Field} {step : Field.Step} (hf : f.Meets R)
    (hstep : step.Keeps R) : (f.apply step).Meets R := by
  rw [Field.meets_iff] at hf ⊢
  cases step with
  | allowAbsent => exact hf
  | accept shape =>
      show ∀ a ∈ Keyed.upsert Assertion.kind _ _ f.assertions, a.Meets R
      exact Keyed.forall_mem_upsert hstep (fun _ _ => hstep) hf
  | restrict kind rule =>
      obtain ⟨hplain, hold⟩ := hstep
      show ∀ a ∈ Keyed.upsert Assertion.kind kind (Field.restricted kind rule) f.assertions, _
      refine Keyed.forall_mem_upsert (P := Assertion.Meets R) ⟨hplain, trivial⟩ ?_ hf
      -- the shape stays, and with it everything inside
      intro a ha
      obtain ⟨hown, hshape⟩ := Assertion.meets_iff.1 ha
      exact ⟨hold a hown, hshape⟩

/-- **A field built up by steps that keep to a requirement meets it.** -/
theorem Field.meets_run {f : Field} {steps : List Field.Step} (hf : f.Meets R)
    (hsteps : ∀ step ∈ steps, step.Keeps R) : (f.run steps).Meets R := by
  unfold Field.run
  induction steps generalizing f with
  | nil => exact hf
  | cons step steps ih =>
      obtain ⟨hstep, hrest⟩ := List.forall_mem_cons.1 hsteps
      exact ih (Field.meets_apply hf hstep) hrest

/-- Whether a step in building a schema keeps to a requirement. -/
def Schema.Step.Keeps (R : Requirement) : Schema.Step → Prop
  | .declare m => m.Meets R
  | .extend other => other.Meets R

/-- So does the declaration of a member. -/
theorem Schema.meets_declare {s : Schema} {m : Member} (hs : s.Meets R) (hm : m.Meets R) :
    (s.declare m).Meets R := by
  rw [Schema.meets_iff] at hs ⊢
  exact Keyed.forall_mem_upsert hm (fun _ _ => hm) hs

/-- So does an extension, member by member. -/
theorem Schema.meets_extend {s other : Schema} (hs : s.Meets R) (hother : other.Meets R) :
    (s.extend other).Meets R := by
  rw [Schema.meets_iff] at hother
  obtain ⟨members⟩ := other
  show (members.foldl Schema.declare s).Meets R
  induction members generalizing s with
  | nil => exact hs
  | cons m members ih =>
      obtain ⟨hm, hrest⟩ := List.forall_mem_cons.1 hother
      exact ih (Schema.meets_declare hs hm) hrest

/-- **A schema built up by steps that keep to a requirement meets it.** -/
theorem Schema.meets_run {s : Schema} {steps : List Schema.Step} (hs : s.Meets R)
    (hsteps : ∀ step ∈ steps, step.Keeps R) : (s.run steps).Meets R := by
  unfold Schema.run
  induction steps generalizing s with
  | nil => exact hs
  | cons step steps ih =>
      obtain ⟨hstep, hrest⟩ := List.forall_mem_cons.1 hsteps
      refine ih ?_ hrest
      cases step with
      | declare m => exact Schema.meets_declare hs hstep
      | extend other => exact Schema.meets_extend hs hstep

end SecurityRules
