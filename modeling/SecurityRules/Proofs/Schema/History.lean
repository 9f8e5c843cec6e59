/-
  SecurityRules.Proofs.Schema.History
  ────────────────────────────────
  **A SCHEMA REMEMBERS THE LAST DECLARATION OF EACH KEY.**

  A schema is built by calls, each of which declares a member or takes over
  those of another schema that is built in the same way.  Whatever the calls
  are, they amount to declaring members one after another (`members_schema`),
  and what is left of them is an ordered map: a key stands where it was first
  declared, with the member that was declared for it last.

  Taking over a schema is therefore associative, has the schema without members
  on both sides as its unit, and does nothing when it is done twice.

  Main statement: `Schema.History.records_schema`.
-/
import SecurityRules.Schema.Basic
import SecurityRules.Proofs.Keyed

namespace SecurityRules.Schema

/-! ## §1. Calls. -/

/-- The calls that build a schema, in order. The schema that another one is
extended by has calls of its own. -/
inductive History where
  | start
  | declare (earlier : History) (member : Member)
  | extend (earlier other : History)

namespace History

/-- The schema that the calls build. -/
def schema : History → Schema
  | start => .empty
  | declare earlier member => earlier.schema.declare member
  | extend earlier other => earlier.schema.extend other.schema

/-- The members that the calls declare, in order. What a schema is extended by
counts as declared at that point, in the order in which it was built. -/
def declared : History → List Member
  | start => []
  | declare earlier member => earlier.declared ++ [member]
  | extend earlier other => earlier.declared ++ other.declared

end History

/-- Whether a schema is what is left of declaring members in the given order. -/
structure Records (s : Schema) (declared : List Member) : Prop where
  /-- No key occurs twice. -/
  nodup : s.keys.Nodup
  /-- The keys stand in the order of their first declaration. -/
  keys_eq : s.keys = (declared.map Member.name).eraseDups
  /-- The members are those behind which no other one has their key. -/
  mem_iff : ∀ m, m ∈ s.members ↔
    ∃ before after, declared = before ++ m :: after ∧ ∀ n ∈ after, n.name ≠ m.name

/-! ## §2. Calls as declarations. -/

/-- Extending a schema inserts the members of the other, one by one. -/
theorem members_extend (s other : Schema) :
    (s.extend other).members = Keyed.insertAll Member.name s.members other.members := by
  obtain ⟨news⟩ := other
  show (news.foldl declare s).members = _
  induction news generalizing s with
  | nil => rfl
  | cons m news ih => exact ih (s.declare m)

theorem ext_members {s t : Schema} (h : s.members = t.members) : s = t := by
  cases s
  cases t
  exact congrArg Schema.mk h

namespace History

/-- **Calls amount to declaring members one after another.** -/
theorem members_schema (h : History) :
    h.schema.members = Keyed.insertAll Member.name [] h.declared := by
  have hdistinct : ∀ news : List Member,
      ((Keyed.insertAll Member.name [] news).map Member.name).Nodup :=
    fun news => Keyed.nodup_key_insertAll Keyed.nodup_key_nil news
  induction h with
  | start => rfl
  | declare earlier member ih =>
      rw [declared, Keyed.insertAll_append, ← ih]
      rfl
  | extend earlier other ih iho =>
      -- the other schema was gathered in a list of its own
      rw [schema, members_extend, ih, iho, declared, Keyed.insertAll_append,
        Keyed.insertAll_insertAll (hdistinct _) Keyed.nodup_key_nil]
      rfl

theorem nodup_keys (h : History) : (h.schema.members.map Member.name).Nodup := by
  rw [members_schema]
  exact Keyed.nodup_key_insertAll Keyed.nodup_key_nil _

/-- A schema records what its history declared. -/
theorem records (h : History) : h.schema.Records h.declared where
  nodup := h.nodup_keys
  keys_eq := by
    rw [keys, members_schema, Keyed.map_key_insertAll Keyed.nodup_key_nil]
    rfl
  mem_iff m := by
    have hentry : Keyed.entryAt Member.name m.name h.schema.members
        = Keyed.lastAt Member.name m.name h.declared := by
      rw [members_schema, Keyed.entryAt_insertAll]
      exact Option.or_none
    rw [Keyed.mem_iff_entryAt h.nodup_keys, hentry, Keyed.lastAt_eq_some_iff]

/-- Extensions may be grouped in any way. -/
theorem extend_assoc (a b c : History) :
    (a.schema.extend b.schema).extend c.schema = a.schema.extend (b.schema.extend c.schema) := by
  refine ext_members ?_
  rw [members_extend, members_extend, members_extend, members_extend]
  exact (Keyed.insertAll_insertAll a.nodup_keys b.nodup_keys _).symm

/-- **A schema is an ordered map of what was declared**, after any calls:
distinct keys in the order of their first declaration, each with the member that
was declared for it last. Extending is associative, the schema without members is
its unit on both sides, and a schema is not changed by being extended by itself. -/
theorem records_schema (a b c : History) :
    a.schema.Records a.declared
      ∧ (a.schema.extend b.schema).extend c.schema = a.schema.extend (b.schema.extend c.schema)
      ∧ Schema.empty.extend a.schema = a.schema ∧ a.schema.extend .empty = a.schema
      ∧ a.schema.extend a.schema = a.schema := by
  refine ⟨a.records, extend_assoc a b c, ext_members ?_, rfl, ext_members ?_⟩
  · rw [members_extend]
    exact Keyed.insertAll_nil_of_nodup a.nodup_keys
  · rw [members_extend]
    exact Keyed.insertAll_self a.nodup_keys

end History

end SecurityRules.Schema
