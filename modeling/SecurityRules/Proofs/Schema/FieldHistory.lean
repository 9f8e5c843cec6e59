/-
  SecurityRules.Proofs.Schema.FieldHistory
  ────────────────────────────────
  **A FIELD REMEMBERS WHAT WAS LAST SAID OF EACH KIND.**

  Two calls speak of a kind.  Accepting a shape replaces all that was said of
  its kind, a predicate included; restricting a kind keeps the shape and
  replaces the predicate.  So of each kind the last shape counts, and the last
  predicate if it was put behind that shape.  The kinds stand in the order in
  which they were first spoken of.

    * `Records` — what is left of some calls, said along the calls alone;
    * `Records.apply` — a further call keeps this up;
    * `branches_of_rule` — the rule of a field has one branch for each assertion,
      and none of the branches is empty.

  Main statement: `Field.records_calls`.
-/
import Mathlib.Data.List.Forall2
import SecurityRules.Proofs.Keyed
import SecurityRules.Proofs.Schema.Meaning

namespace SecurityRules

/-! ## §1. What calls say of a kind. -/

/-- Behind a change to an entry, each entry is the changed one or was there
before under another key. -/
theorem Keyed.mem_upsert {α κ : Type} [DecidableEq κ] {key : α → κ} {k : κ}
    {change : Option α → α} {entries : List α} (hkey : Keyed.Keeps key k change)
    (hnodup : (entries.map key).Nodup) {a : α} (ha : a ∈ Keyed.upsert key k change entries) :
    (key a = k ∧ a = change (Keyed.entryAt key k entries)) ∨ (key a ≠ k ∧ a ∈ entries) := by
  have hentry := (Keyed.mem_iff_entryAt (Keyed.nodup_key_upsert hkey hnodup)).1 ha
  by_cases hk : key a = k
  · rw [hk, Keyed.entryAt_upsert_self hkey] at hentry
    exact .inl ⟨hk, (Option.some.inj hentry).symm⟩
  · rw [Keyed.entryAt_upsert_of_ne hkey hk] at hentry
    exact .inr ⟨hk, (Keyed.mem_iff_entryAt hnodup).2 hentry⟩

namespace Field

namespace Step

/-- The kind that a call speaks of. -/
def kind? : Step → Option Kind
  | .allowAbsent => none
  | .accept shape => some shape.kind
  | .restrict kind _ => some kind

/-- The shape that a call gives to a kind. -/
def shapeFor? (k : Kind) : Step → Option Shape
  | .accept shape => if shape.kind = k then some shape else none
  | .allowAbsent => none
  | .restrict _ _ => none

/-- The predicate that a call puts to a kind. -/
def ruleFor? (k : Kind) : Step → Option Predicate
  | .restrict kind rule => if kind = k then some rule else none
  | .allowAbsent => none
  | .accept _ => none

/-- A call that does not speak of a kind gives it neither shape nor predicate. -/
theorem silent_of_kind?_ne {k : Kind} {step : Step} (h : step.kind? ≠ some k) :
    step.shapeFor? k = none ∧ step.ruleFor? k = none := by
  cases step with
  | allowAbsent => exact ⟨rfl, rfl⟩
  | accept shape => exact ⟨if_neg fun hk => h (congrArg some hk), rfl⟩
  | restrict kind rule => exact ⟨rfl, if_neg fun hk => h (congrArg some hk)⟩

end Step

/-- The predicate that was last put to a kind. -/
def lastRule (k : Kind) (calls : List Step) : Option Predicate :=
  (calls.filterMap (Step.ruleFor? k)).getLast?

theorem lastRule_concat_of_none {k : Kind} {step : Step} (h : step.ruleFor? k = none)
    (calls : List Step) : lastRule k (calls ++ [step]) = lastRule k calls := by
  simp [lastRule, h]

theorem lastRule_concat_restrict (k : Kind) (rule : Predicate) (calls : List Step) :
    lastRule k (calls ++ [.restrict k rule]) = some rule := by
  simp [lastRule, Step.ruleFor?]

/-- Whether an assertion is what some calls leave of its kind. -/
inductive Recorded (calls : List Step) (a : Assertion) : Prop where
  /-- A shape was accepted last, and the predicate was put behind it. -/
  | accepted (before after : List Step) (hcalls : calls = before ++ .accept a.shape :: after)
      (hlast : ∀ step ∈ after, step.shapeFor? a.kind = none)
      (hrule : a.rule = lastRule a.kind after)
  /-- The kind was only ever restricted. -/
  | restricted (hnever : ∀ step ∈ calls, step.shapeFor? a.kind = none)
      (hshape : a.shape = .plain a.kind) (hrule : a.rule = lastRule a.kind calls)

/-- Whether a field is what is left of some calls. -/
structure Records (f : Field) (calls : List Step) : Prop where
  /-- No kind occurs twice. -/
  nodup : f.kinds.Nodup
  /-- The kinds stand in the order in which they were first spoken of. -/
  kinds_eq : f.kinds = (calls.filterMap Step.kind?).eraseDups
  /-- Each kind has the last shape that it was given, and the predicate that was
  last put to it behind that shape. -/
  recorded : ∀ a ∈ f.assertions, Recorded calls a

/-! ## §2. A further call. -/

variable {calls : List Step} {a : Assertion}

/-- A call that speaks of another kind, or of none, changes nothing. -/
theorem Recorded.concat_of_ne (h : Recorded calls a) {step : Step}
    (hstep : step.kind? ≠ some a.kind) : Recorded (calls ++ [step]) a := by
  obtain ⟨hshape, hrule⟩ := Step.silent_of_kind?_ne hstep
  cases h with
  | accepted before after hcalls hlast hsaid =>
      refine .accepted before (after ++ [step]) ?_ ?_ ?_
      · rw [hcalls, List.append_assoc, List.cons_append]
      · exact List.forall_mem_append.2 ⟨hlast, List.forall_mem_singleton.2 hshape⟩
      · rw [lastRule_concat_of_none hrule, hsaid]
  | restricted hnever hplain hsaid =>
      refine .restricted ?_ hplain ?_
      · exact List.forall_mem_append.2 ⟨hnever, List.forall_mem_singleton.2 hshape⟩
      · rw [lastRule_concat_of_none hrule, hsaid]

/-- A shape that is accepted replaces what was said before. -/
theorem recorded_accept (calls : List Step) (shape : Shape) :
    Recorded (calls ++ [.accept shape]) ⟨shape, none⟩ :=
  .accepted calls [] rfl (List.forall_mem_nil _) rfl

/-- A predicate keeps the shape to which it is put. -/
theorem Recorded.concat_restrict (h : Recorded calls a) (rule : Predicate) :
    Recorded (calls ++ [.restrict a.kind rule]) ⟨a.shape, some rule⟩ := by
  cases h with
  | accepted before after hcalls hlast hsaid =>
      refine .accepted before (after ++ [.restrict a.kind rule]) ?_ ?_ ?_
      · rw [hcalls, List.append_assoc, List.cons_append]
      · exact List.forall_mem_append.2 ⟨hlast, List.forall_mem_singleton.2 rfl⟩
      · exact (lastRule_concat_restrict a.kind rule after).symm
  | restricted hnever hplain hsaid =>
      refine .restricted ?_ hplain ?_
      · exact List.forall_mem_append.2 ⟨hnever, List.forall_mem_singleton.2 rfl⟩
      · exact (lastRule_concat_restrict a.kind rule calls).symm

/-- A predicate for a kind of which nothing was said leaves the kind alone. -/
theorem recorded_restrict_of_new {k : Kind} (hnew : k ∉ calls.filterMap Step.kind?)
    (rule : Predicate) : Recorded (calls ++ [.restrict k rule]) ⟨.plain k, some rule⟩ := by
  refine .restricted (List.forall_mem_append.2 ⟨?_, List.forall_mem_singleton.2 rfl⟩) rfl
    (lastRule_concat_restrict k rule calls).symm
  intro step hstep
  refine (Step.silent_of_kind?_ne fun hk => hnew ?_).1
  exact List.mem_filterMap.2 ⟨step, hstep, hk⟩

/-- A kind that is spoken of again keeps its place, and a new one comes last. -/
theorem eraseDups_concat (ks : List Kind) (k : Kind) :
    (ks ++ [k]).eraseDups = if k ∈ ks.eraseDups then ks.eraseDups else ks.eraseDups ++ [k] := by
  by_cases hmem : k ∈ ks
  · rw [if_pos (List.mem_eraseDups.2 hmem), Keyed.eraseDups_append_cons_of_mem hmem,
      List.append_nil]
  · have hkeep : [k].removeAll ks = [k] := List.filter_cons_of_pos (by simpa using hmem)
    rw [if_neg fun h => hmem (List.mem_eraseDups.1 h), List.eraseDups_append, hkeep]
    rfl

theorem keeps_restricted (k : Kind) (rule : Predicate) :
    Keyed.Keeps Assertion.kind k (restricted k rule) :=
  ⟨rfl, fun _ ha => ha⟩

/-- A change under a kind that is spoken of leaves the kinds in order. -/
theorem kinds_upsert {f : Field} (h : Records f calls) {step : Step} {k : Kind}
    (hstep : step.kind? = some k) {change : Option Assertion → Assertion}
    (hkey : Keyed.Keeps Assertion.kind k change) :
    (Keyed.upsert Assertion.kind k change f.assertions).map Assertion.kind
      = ((calls ++ [step]).filterMap Step.kind?).eraseDups := by
  have hkinds : f.assertions.map Assertion.kind = (calls.filterMap Step.kind?).eraseDups :=
    h.kinds_eq
  have hlast : [step].filterMap Step.kind? = [k] := by
    rw [List.filterMap_cons, hstep]
    rfl
  rw [Keyed.map_key_upsert hkey, List.filterMap_append, hlast, eraseDups_concat, hkinds]

/-- **A further call keeps the record.** -/
theorem Records.apply {f : Field} (h : Records f calls) (step : Step) :
    Records (f.apply step) (calls ++ [step]) := by
  obtain ⟨hnodup, hkinds, hrecorded⟩ := id h
  cases step with
  | allowAbsent =>
      refine ⟨hnodup, ?_, fun a ha => (hrecorded a ha).concat_of_ne nofun⟩
      have hsilent : (calls ++ [Step.allowAbsent]).filterMap Step.kind?
          = calls.filterMap Step.kind? := by
        rw [List.filterMap_append]
        exact List.append_nil _
      rw [hsilent]
      exact hkinds
  | accept shape =>
      have hkey := Keyed.keeps_const Assertion.kind ⟨shape, none⟩
      refine ⟨Keyed.nodup_key_upsert hkey hnodup, kinds_upsert h rfl hkey, fun a ha => ?_⟩
      rcases Keyed.mem_upsert hkey hnodup ha with ⟨-, rfl⟩ | ⟨hne, hold⟩
      · exact recorded_accept calls shape
      · exact (hrecorded a hold).concat_of_ne fun hk => hne (Option.some.inj hk).symm
  | restrict kind rule =>
      have hkey := keeps_restricted kind rule
      refine ⟨Keyed.nodup_key_upsert hkey hnodup, kinds_upsert h rfl hkey, fun a ha => ?_⟩
      rcases Keyed.mem_upsert hkey hnodup ha with ⟨-, rfl⟩ | ⟨hne, hold⟩
      · cases hentry : Keyed.entryAt Assertion.kind kind f.assertions with
        | none =>
            -- nothing is there under the kind, so no call spoke of it
            refine recorded_restrict_of_new (fun hmem => ?_) rule
            have hkind : kind ∈ f.kinds := hkinds ▸ List.mem_eraseDups.2 hmem
            obtain ⟨b, hb, hbk⟩ := List.mem_map.1 hkind
            exact absurd (hbk ▸ (Keyed.mem_iff_entryAt hnodup).1 hb) (by rw [hentry]; nofun)
        | some old =>
            have hold : old ∈ f.assertions := List.mem_of_find?_eq_some hentry
            have hkind := List.find?_some (p := fun b : Assertion => b.kind = kind) hentry
            obtain rfl : old.kind = kind := of_decide_eq_true hkind
            exact (hrecorded old hold).concat_restrict rule
      · exact (hrecorded a hold).concat_of_ne fun hk => hne (Option.some.inj hk).symm

theorem records_empty (name : String) : Records (empty name) [] :=
  ⟨List.nodup_nil, rfl, List.forall_mem_nil _⟩

/-- **A field is what is left of the calls that build it.** -/
theorem records_run {f : Field} (h : Records f calls) (more : List Step) :
    Records (f.run more) (calls ++ more) := by
  induction more generalizing f calls with
  | nil =>
      rw [List.append_nil]
      exact h
  | cons step more ih =>
      have hrest := ih (h.apply step)
      rw [List.append_assoc] at hrest
      exact hrest

/-! ## §3. Leave to be absent. -/

/-- Calls in a row are calls run one after the other. -/
theorem run_append (f : Field) (steps more : List Step) :
    f.run (steps ++ more) = (f.run steps).run more :=
  List.foldl_append

/-- What a field accepts behind a call depends on what it accepted before. -/
theorem assertions_apply_congr {f g : Field} (h : f.assertions = g.assertions) (step : Step) :
    (f.apply step).assertions = (g.apply step).assertions := by
  cases step with
  | allowAbsent => exact h
  | accept shape => exact congrArg (Keyed.insert Assertion.kind ⟨shape, none⟩) h
  | restrict kind rule => exact congrArg (Keyed.upsert Assertion.kind kind (restricted kind rule)) h

/-- What a field asserts after some calls depends only on what it asserted
before them: a call reads no other part of the field. -/
theorem assertions_run_congr {f g : Field} (h : f.assertions = g.assertions)
    (steps : List Step) : (f.run steps).assertions = (g.run steps).assertions := by
  induction steps generalizing f g with
  | nil => exact h
  | cons step steps ih => exact ih (assertions_apply_congr h step)

/-- Leave to be absent makes no difference to what is accepted. -/
theorem assertions_run_allowAbsent (f : Field) (before after : List Step) :
    (f.run (before ++ .allowAbsent :: after)).assertions
      = (f.run (before ++ after)).assertions := by
  have hsame : (f.run before).allowAbsent.assertions = (f.run before).assertions := rfl
  rw [run_append, run_append]
  exact assertions_run_congr hsame after

/-! ## §4. Branches. -/

/-- Whether a branch is what an assertion demands of the value at `target`: parts
that have to hold together, and at least one. -/
structure IsBranch (document target : String) (a : Assertion) (branch : Rule) : Prop where
  eq_ok : Assertion.branch document target a = .ok branch
  connective : branch.connective = .all
  ne_nil : branch.parts ≠ []

/-- Whatever an assertion with a type, values or a predicate gives is a
conjunction with at least one part. -/
theorem isBranch_of_eq_ok {document target : String} {a : Assertion}
    (ha : Requirement.valued.assertion a) {branch : Rule}
    (h : Assertion.branch document target a = .ok branch) : IsBranch document target a branch where
  eq_ok := h
  connective := by
    obtain ⟨shape, rule⟩ := a
    obtain ⟨further, extra, -, -, rfl⟩ := Assertion.branch_eq_ok.1 h
    rfl
  ne_nil := List.isEmpty_eq_false_iff.1 (Assertion.isEmpty_of_branch ha h)

/-- Each assertion leaves one branch, in order. -/
theorem branches_of_alternatives {document target : String} {assertions : List Assertion}
    (ha : ∀ a ∈ assertions, Requirement.valued.assertion a) {parts : List (Formula String)}
    (h : Assertion.alternatives document target assertions = .ok parts) :
    ∃ branches : List Rule, parts = branches.map Junction.toFormula
      ∧ List.Forall₂ (IsBranch document target) assertions branches := by
  induction assertions generalizing parts with
  | nil =>
      cases h
      exact ⟨[], rfl, .nil⟩
  | cons a assertions ih =>
      obtain ⟨hfirst, hlater⟩ := List.forall_mem_cons.1 ha
      obtain ⟨branch, rest, hbranch, hrest, rfl⟩ := Assertion.alternatives_cons_eq_ok.1 h
      obtain ⟨branches, rfl, hbranches⟩ := ih hlater hrest
      refine ⟨branch :: branches, ?_, .cons (isBranch_of_eq_ok hfirst hbranch) hbranches⟩
      -- a branch that is not empty is not left out
      rw [alternative_of_not_isEmpty (Assertion.isEmpty_of_branch hfirst hbranch)]
      rfl

/-- The rule of a field is a choice with one branch for each assertion. -/
theorem branches_of_rule {f : Field} (hf : ∀ a ∈ f.assertions, Requirement.valued.assertion a)
    {document : String} {rule : Rule} (h : f.rule document = .ok rule) :
    ∃ branches : List Rule, rule = ⟨.any, branches.map Junction.toFormula⟩
      ∧ List.Forall₂ (IsBranch document (Text.joinPath document f.name)) f.assertions branches := by
  obtain ⟨name, optional, assertions⟩ := f
  obtain ⟨parts, hparts, rfl⟩ := Field.rule_eq_ok.1 h
  obtain ⟨branches, rfl, hbranches⟩ := branches_of_alternatives hf hparts
  exact ⟨branches, rfl, hbranches⟩

/-! ## §5. Calls. -/

/-- A call in building a field. An enumeration is accepted with its values. -/
structure Call where
  step : Step
  valued : step ≠ .accept (.plain .oneOf)

/-- The field that calls build. -/
def ofCalls (name : String) (calls : List Call) : Field :=
  (empty name).run (calls.map Call.step)

/-- A call never leaves an assertion without anything to say. -/
theorem valued_apply {f : Field} (hf : ∀ a ∈ f.assertions, Requirement.valued.assertion a)
    (call : Call) : ∀ a ∈ (f.apply call.step).assertions, Requirement.valued.assertion a := by
  obtain ⟨step, hstep⟩ := call
  cases step with
  | allowAbsent => exact hf
  | accept shape =>
      have hnew : Requirement.valued.assertion ⟨shape, none⟩ :=
        fun hshape => absurd (congrArg Step.accept hshape) hstep
      exact Keyed.forall_mem_upsert hnew (fun _ _ => hnew) hf
  | restrict kind rule =>
      -- the predicate takes the place of the values
      exact Keyed.forall_mem_upsert (fun _ => Option.some_ne_none rule)
        (fun _ _ _ => Option.some_ne_none rule) hf

/-- No sequence of calls does. -/
theorem valued_ofCalls (name : String) (calls : List Call) :
    ∀ a ∈ (ofCalls name calls).assertions, Requirement.valued.assertion a := by
  have hrun : ∀ f : Field, (∀ a ∈ f.assertions, Requirement.valued.assertion a) →
      ∀ a ∈ (f.run (calls.map Call.step)).assertions, Requirement.valued.assertion a := by
    induction calls with
    | nil => exact fun f hf => hf
    | cons call calls ih => exact fun f hf => ih _ (valued_apply hf call)
  exact hrun (empty name) (List.forall_mem_nil _)

/-- **What is left of the calls that build a field**: distinct kinds in the order
in which they were first spoken of, each with the last shape that it was given and
the predicate that was last put to it behind that shape. Leave to be absent makes
no difference to them. Where the field has a rule, it is a choice with one branch
for each kind, in order, and none of the branches is empty; so the rule is empty
exactly if no kind was spoken of. -/
theorem records_calls (name : String) (calls : List Call) :
    Records (ofCalls name calls) (calls.map Call.step)
      ∧ (∀ f before after, (run f (before ++ .allowAbsent :: after)).assertions
          = (run f (before ++ after)).assertions)
      ∧ ∀ document rule, (ofCalls name calls).rule document = .ok rule →
          (∃ branches : List Rule, rule = ⟨.any, branches.map Junction.toFormula⟩
            ∧ List.Forall₂ (IsBranch document (Text.joinPath document (ofCalls name calls).name))
              (ofCalls name calls).assertions branches)
            ∧ (rule.isEmpty = true ↔ (ofCalls name calls).kinds = []) := by
  refine ⟨records_run (records_empty name) _, assertions_run_allowAbsent, ?_⟩
  intro document rule hrule
  obtain ⟨branches, rfl, hbranches⟩ := branches_of_rule (valued_ofCalls name calls) hrule
  refine ⟨⟨branches, rfl, hbranches⟩, ?_⟩
  have hlength := hbranches.length_eq
  rw [Junction.isEmpty, List.isEmpty_iff, List.map_eq_nil_iff, kinds, List.map_eq_nil_iff,
    ← List.length_eq_zero_iff, ← hlength, List.length_eq_zero_iff]

/-- A key that held positive integers, and then null or any integer. -/
def retagged : List Call :=
  [⟨.accept (.plain .int), nofun⟩,
    ⟨.restrict .int ⟨.all, [.leaf (.condition ⟨.field .this, .greater, .literal "0"⟩)]⟩, nofun⟩,
    ⟨.accept (.plain .null), nofun⟩, ⟨.allowAbsent, nofun⟩, ⟨.accept (.plain .int), nofun⟩]

/-- A field that is declared twice for one type keeps the place of the first
call and the content of the second. -/
theorem records_retagged :
    (ofCalls "a" retagged).kinds = [.int, .null]
      ∧ Records (ofCalls "a" retagged) (retagged.map Call.step)
      ∧ ∃ rule, (ofCalls "a" retagged).rule "d" = .ok rule
        ∧ rule = ⟨.any, [.node .all [.text "d.a is int"], .node .all [.text "d.a == null"]]⟩
        ∧ rule.isEmpty = false
        ∧ ∃ branches : List Rule, rule = ⟨.any, branches.map Junction.toFormula⟩
          ∧ List.Forall₂ (IsBranch "d" (Text.joinPath "d" (ofCalls "a" retagged).name))
            (ofCalls "a" retagged).assertions branches := by
  obtain ⟨rule, hrule⟩ : ∃ rule, (ofCalls "a" retagged).rule "d" = .ok rule := ⟨_, rfl⟩
  have hkinds : (ofCalls "a" retagged).kinds = [.int, .null] := rfl
  obtain ⟨hrecords, -, hrules⟩ := records_calls "a" retagged
  obtain ⟨hbranches, hempty⟩ := hrules "d" rule hrule
  refine ⟨hkinds, hrecords, rule, hrule, ?_, ?_, hbranches⟩
  · cases hrule
    rfl
  · rw [Bool.eq_false_iff, Ne, hempty, hkinds]
    exact List.cons_ne_nil _ _

end Field

end SecurityRules
