/-
  SecurityRules.Keyed
  ────────────────────────────────
  **LISTS WITH ONE ENTRY PER KEY.**

  Members of a schema are keyed by their names and assertions of a field by
  their kinds.  Both are kept as lists in the order in which the keys were
  first used, and both are changed by `upsert` alone: an entry with the key is
  changed in its place, and otherwise a new one comes last.

  Main statements, for a change that keeps the key:

    * `map_key_upsert` — the keys stay in place, and a new key comes last;
    * `nodup_key_upsert` — keys that are distinct stay distinct;
    * `entryAt_upsert_self`, `entryAt_upsert_of_ne` — the entry under the key is
      the changed one, and every other entry is as it was.
-/

namespace SecurityRules.Keyed

variable {α κ : Type} [DecidableEq κ]

/-! ## §1. The operation. -/

/-- Changes the first entry with the key `k`, or adds an entry at the end. -/
def upsert (key : α → κ) (k : κ) (change : Option α → α) : List α → List α
  | [] => [change none]
  | a :: entries =>
      if key a = k then change (some a) :: entries else a :: upsert key k change entries

/-- Puts `a` in the place of the entry with its key, or at the end. -/
def insert (key : α → κ) (a : α) (entries : List α) : List α :=
  upsert key (key a) (fun _ => a) entries

/-- The entry with the key `k`. -/
def entryAt (key : α → κ) (k : κ) (entries : List α) : Option α :=
  entries.find? fun a => key a = k

/-- Whatever it is given for the key `k`, the change makes an entry with that
key of it. -/
def Keeps (key : α → κ) (k : κ) (change : Option α → α) : Prop :=
  key (change none) = k ∧ ∀ a, key a = k → key (change (some a)) = k

omit [DecidableEq κ] in
theorem keeps_const (key : α → κ) (a : α) : Keeps key (key a) fun _ => a :=
  ⟨rfl, fun _ _ => rfl⟩

/-! ## §2. Its laws. -/

section Laws

variable {key : α → κ} {k : κ} {change : Option α → α} {entries : List α}

theorem upsert_of_notMem (h : k ∉ entries.map key) :
    upsert key k change entries = entries ++ [change none] := by
  induction entries with
  | nil => rfl
  | cons a entries ih =>
      rw [List.map_cons, List.mem_cons, not_or] at h
      unfold upsert
      rw [if_neg (Ne.symm h.1), ih h.2]
      rfl

theorem map_key_upsert_of_mem (hkey : Keeps key k change) (h : k ∈ entries.map key) :
    (upsert key k change entries).map key = entries.map key := by
  induction entries with
  | nil => simp at h
  | cons a entries ih =>
      unfold upsert
      by_cases ha : key a = k
      · rw [if_pos ha, List.map_cons, List.map_cons, hkey.2 a ha, ha]
      · have hmem : k ∈ entries.map key := by
          rw [List.map_cons, List.mem_cons] at h
          exact h.resolve_left fun e => ha e.symm
        rw [if_neg ha, List.map_cons, List.map_cons, ih hmem]

/-- The keys stay in place, and a new key comes last. -/
theorem map_key_upsert (hkey : Keeps key k change) :
    (upsert key k change entries).map key
      = if k ∈ entries.map key then entries.map key else entries.map key ++ [k] := by
  by_cases h : k ∈ entries.map key
  · rw [if_pos h, map_key_upsert_of_mem hkey h]
  · rw [if_neg h, upsert_of_notMem h, List.map_append, List.map_cons, hkey.1]
    rfl

/-- Keys that are distinct stay distinct. -/
theorem nodup_key_upsert (hkey : Keeps key k change) (h : (entries.map key).Nodup) :
    ((upsert key k change entries).map key).Nodup := by
  rw [map_key_upsert hkey]
  split
  · exact h
  · next hk =>
      refine List.nodup_append.2 ⟨h, by simp, ?_⟩
      intro a ha b hb hab
      rw [List.mem_singleton] at hb
      exact hk (hb ▸ hab ▸ ha)

/-- The entry under the key is the changed one. -/
theorem entryAt_upsert_self (hkey : Keeps key k change) :
    entryAt key k (upsert key k change entries) = some (change (entryAt key k entries)) := by
  induction entries with
  | nil => simp [upsert, entryAt, hkey.1]
  | cons a entries ih =>
      unfold upsert
      by_cases ha : key a = k
      · simp [entryAt, ha, hkey.2 a ha]
      · rw [if_neg ha]
        simpa [entryAt, ha] using ih

/-- Every other entry is as it was. -/
theorem entryAt_upsert_of_ne {k' : κ} (hkey : Keeps key k change) (hne : k' ≠ k) :
    entryAt key k' (upsert key k change entries) = entryAt key k' entries := by
  induction entries with
  | nil => simp [upsert, entryAt, hkey.1, hne.symm]
  | cons a entries ih =>
      unfold upsert
      by_cases ha : key a = k
      · simp [entryAt, ha, hkey.2 a ha, hne.symm]
      · rw [if_neg ha]
        unfold entryAt at ih ⊢
        rw [List.find?_cons, List.find?_cons, ih]

end Laws

end SecurityRules.Keyed
