/-
  SecurityRules.Proofs.Keyed
  ────────────────────────────────
  **MANY ENTRIES PUT IN, ONE AFTER ANOTHER.**

  A keyed list with distinct keys is known by two things, its keys in order and
  the entry under each key (`eq_of_entryAt`).  Putting in entries one after
  another leaves both in plain sight:

    * `map_key_insertAll` — the keys stand in the order of their first use;
    * `entryAt_insertAll` — under each key stands the entry that came last.

  So it makes no difference whether entries are put in one by one or are first
  gathered in a list of their own (`insertAll_insertAll`), and to put in again
  what is there already changes nothing (`insertAll_self`).
-/
import SecurityRules.Keyed

namespace SecurityRules.Keyed

variable {α κ : Type} [DecidableEq κ]

/-- Puts in entries, one after another. -/
def insertAll (key : α → κ) (entries news : List α) : List α :=
  news.foldl (fun known a => insert key a known) entries

/-- The last entry with the key `k`. -/
def lastAt (key : α → κ) (k : κ) (entries : List α) : Option α :=
  entries.reverse.find? fun a => key a = k

variable {key : α → κ}

theorem insertAll_cons (a : α) (entries news : List α) :
    insertAll key entries (a :: news) = insertAll key (insert key a entries) news := rfl

/-- Entries are inserted in order, so a list of them may be cut anywhere. -/
theorem insertAll_append (entries news later : List α) :
    insertAll key entries (news ++ later) = insertAll key (insertAll key entries news) later :=
  List.foldl_append

omit [DecidableEq κ] in
theorem nodup_key_nil : (([] : List α).map key).Nodup :=
  List.nodup_nil

/-! ## §1. One entry. -/

/-- An entry with a new key comes last; one with a known key takes the place of
the old entry. -/
theorem map_key_insert (a : α) (entries : List α) :
    (insert key a entries).map key
      = if key a ∈ entries.map key then entries.map key else entries.map key ++ [key a] :=
  map_key_upsert (keeps_const key a)

/-- No key comes twice. -/
theorem nodup_key_insert {entries : List α} (h : (entries.map key).Nodup) (a : α) :
    ((insert key a entries).map key).Nodup :=
  nodup_key_upsert (keeps_const key a) h

/-- The entry that was inserted is the one under its key, and no other key is
touched. -/
theorem entryAt_insert (a : α) (entries : List α) (k : κ) :
    entryAt key k (insert key a entries) = if key a = k then some a else entryAt key k entries := by
  by_cases hk : key a = k
  · rw [if_pos hk]
    subst hk
    exact entryAt_upsert_self (keeps_const key a)
  · rw [if_neg hk]
    exact entryAt_upsert_of_ne (keeps_const key a) (Ne.symm hk)

theorem entryAt_cons (a : α) (entries : List α) (k : κ) :
    entryAt key k (a :: entries) = if key a = k then some a else entryAt key k entries := by
  by_cases hk : key a = k <;> simp [entryAt, hk]

/-- Without the key there is no entry. -/
theorem entryAt_of_notMem {entries : List α} {k : κ} (h : k ∉ entries.map key) :
    entryAt key k entries = none := by
  rw [entryAt, List.find?_eq_none]
  intro a ha hkey
  exact h (List.mem_map.2 ⟨a, ha, of_decide_eq_true hkey⟩)

/-- Of several entries with one key the one further behind counts. -/
theorem lastAt_cons (a : α) (entries : List α) (k : κ) :
    lastAt key k (a :: entries)
      = (lastAt key k entries).or (if key a = k then some a else none) := by
  unfold lastAt
  rw [List.reverse_cons, List.find?_append]
  by_cases hk : key a = k <;> simp [hk]

/-- Where the keys are distinct, the last entry under a key is the only one. -/
theorem lastAt_of_nodup {entries : List α} (h : (entries.map key).Nodup) (k : κ) :
    lastAt key k entries = entryAt key k entries := by
  induction entries with
  | nil => rfl
  | cons a entries ih =>
      rw [List.map_cons, List.nodup_cons] at h
      obtain ⟨hnew, hrest⟩ := h
      rw [lastAt_cons, entryAt_cons, ih hrest]
      by_cases hk : key a = k
      · subst hk
        rw [if_pos rfl, if_pos rfl, entryAt_of_notMem hnew, Option.none_or]
      · rw [if_neg hk, if_neg hk, Option.or_none]

/-- Where no key comes twice the entries are what is found under their keys. -/
theorem mem_iff_entryAt {entries : List α} (h : (entries.map key).Nodup) {a : α} :
    a ∈ entries ↔ entryAt key (key a) entries = some a := by
  constructor
  · intro hmem
    induction entries with
    | nil => exact absurd hmem List.not_mem_nil
    | cons b entries ih =>
        rw [List.map_cons, List.nodup_cons] at h
        obtain ⟨hnew, hrest⟩ := h
        rw [entryAt_cons]
        rcases List.mem_cons.1 hmem with rfl | hlater
        · exact if_pos rfl
        · have hne : key b ≠ key a := fun e => hnew (e ▸ List.mem_map_of_mem hlater)
          rw [if_neg hne, ih hrest hlater]
  · exact List.mem_of_find?_eq_some

/-- The last entry under a key has none of that key behind it. -/
theorem lastAt_eq_some_iff {entries : List α} {a : α} :
    lastAt key (key a) entries = some a ↔
      ∃ before after, entries = before ++ a :: after ∧ ∀ b ∈ after, key b ≠ key a := by
  rw [lastAt, List.find?_eq_some_iff_append]
  constructor
  · rintro ⟨-, after, before, hsplit, hafter⟩
    refine ⟨before.reverse, after.reverse, ?_, fun b hb => ?_⟩
    · rw [List.reverse_eq_iff.1 hsplit, List.reverse_append, List.reverse_cons, List.append_assoc]
      rfl
    · simpa using hafter b (List.mem_reverse.1 hb)
  · rintro ⟨before, after, rfl, hafter⟩
    refine ⟨decide_eq_true rfl, after.reverse, before.reverse, ?_, fun b hb => ?_⟩
    · rw [List.reverse_append, List.reverse_cons, List.append_assoc]
      rfl
    · simpa using hafter b (List.mem_reverse.1 hb)

/-! ## §2. Many entries. -/

/-- However many entries are inserted, no key comes twice. -/
theorem nodup_key_insertAll {entries : List α} (h : (entries.map key).Nodup) (news : List α) :
    ((insertAll key entries news).map key).Nodup := by
  induction news generalizing entries with
  | nil => exact h
  | cons a news ih => exact ih (nodup_key_insert h a)

/-- Where nothing comes twice nothing is erased. -/
theorem eraseDups_of_nodup {ks : List κ} (h : ks.Nodup) : ks.eraseDups = ks := by
  induction ks with
  | nil => rfl
  | cons k ks ih =>
      rw [List.nodup_cons] at h
      obtain ⟨hnew, hrest⟩ := h
      have hfilter : ks.filter (fun b => !b == k) = ks := by
        refine List.filter_eq_self.2 fun b hb => ?_
        have hne : b ≠ k := fun e => hnew (e ▸ hb)
        simpa using hne
      rw [List.eraseDups_cons, hfilter, ih hrest]

/-- A key that is there already makes no difference to the first uses. -/
theorem eraseDups_append_cons_of_mem {ks : List κ} {k : κ} (h : k ∈ ks) (more : List κ) :
    (ks ++ k :: more).eraseDups = (ks ++ more).eraseDups := by
  have hdrop : (k :: more).removeAll ks = more.removeAll ks :=
    List.filter_cons_of_neg (by simpa using h)
  rw [List.eraseDups_append, List.eraseDups_append, hdrop]

/-- **The keys stand in the order of their first use.** -/
theorem map_key_insertAll {entries : List α} (h : (entries.map key).Nodup) (news : List α) :
    (insertAll key entries news).map key = (entries.map key ++ news.map key).eraseDups := by
  induction news generalizing entries with
  | nil => rw [List.map_nil, List.append_nil, eraseDups_of_nodup h]; rfl
  | cons a news ih =>
      rw [insertAll_cons, ih (nodup_key_insert h a), map_key_insert, List.map_cons]
      by_cases hmem : key a ∈ entries.map key
      · rw [if_pos hmem, eraseDups_append_cons_of_mem hmem]
      · rw [if_neg hmem, List.append_assoc, List.singleton_append]

/-- **Under each key stands the entry that came last.** -/
theorem entryAt_insertAll (entries news : List α) (k : κ) :
    entryAt key k (insertAll key entries news)
      = (lastAt key k news).or (entryAt key k entries) := by
  induction news generalizing entries with
  | nil => rfl
  | cons a news ih =>
      rw [insertAll_cons, ih, entryAt_insert, lastAt_cons, Option.or_assoc]
      by_cases hk : key a = k
      · rw [if_pos hk, if_pos hk, Option.some_or]
      · rw [if_neg hk, if_neg hk, Option.none_or]

/-! ## §3. Equal lists. -/

/-- Lists with the same distinct keys in the same order are equal when they have
the same entry under each key. -/
theorem eq_of_entryAt (key : α → κ) {es fs : List α} (hnodup : (es.map key).Nodup)
    (hkeys : es.map key = fs.map key) (hentries : ∀ k, entryAt key k es = entryAt key k fs) :
    es = fs := by
  induction es generalizing fs with
  | nil => exact (List.map_eq_nil_iff.1 hkeys.symm).symm
  | cons a es ih =>
      cases fs with
      | nil => exact absurd hkeys (List.cons_ne_nil _ _)
      | cons b fs =>
          rw [List.map_cons, List.map_cons, List.cons.injEq] at hkeys
          obtain ⟨hkey, hrest⟩ := hkeys
          rw [List.map_cons, List.nodup_cons] at hnodup
          obtain ⟨hnew, hdistinct⟩ := hnodup
          have hfirst := hentries (key a)
          rw [entryAt_cons, entryAt_cons, if_pos rfl, if_pos hkey.symm] at hfirst
          obtain rfl := Option.some.inj hfirst
          -- the key of the first entry is under none of the others
          have htail : ∀ k, entryAt key k es = entryAt key k fs := by
            intro k
            by_cases hk : key a = k
            · subst hk
              rw [entryAt_of_notMem hnew, entryAt_of_notMem (hrest ▸ hnew)]
            · have hsame := hentries k
              rwa [entryAt_cons, entryAt_cons, if_neg hk, if_neg hk] at hsame
          rw [ih hdistinct hrest htail]

/-- An entry with a new key is put at the end. -/
theorem insert_of_notMem {a : α} {entries : List α} (h : key a ∉ entries.map key) :
    insert key a entries = entries ++ [a] :=
  upsert_of_notMem h

/-- An entry may be put in before or after those that are gathered with it. -/
theorem insertAll_insert {entries gathered : List α} (h : (entries.map key).Nodup)
    (hgathered : (gathered.map key).Nodup) (a : α) :
    insertAll key entries (insert key a gathered)
      = insert key a (insertAll key entries gathered) := by
  by_cases hmem : key a ∈ gathered.map key
  · -- the key keeps its place on both sides, so only the entry under it is new
    refine eq_of_entryAt key (nodup_key_insertAll h _) ?_ fun k => ?_
    · have hthere : key a ∈ (entries.map key ++ gathered.map key).eraseDups :=
        List.mem_eraseDups.2 (List.mem_append_right _ hmem)
      rw [map_key_insertAll h, map_key_insert, if_pos hmem, map_key_insert, map_key_insertAll h,
        if_pos hthere]
    · rw [entryAt_insertAll, entryAt_insert, entryAt_insertAll,
        lastAt_of_nodup (nodup_key_insert hgathered a), entryAt_insert, lastAt_of_nodup hgathered]
      by_cases hk : key a = k
      · rw [if_pos hk, if_pos hk, Option.some_or]
      · rw [if_neg hk, if_neg hk]
  · rw [insert_of_notMem hmem, insertAll_append]
    rfl

/-- **Entries may be gathered first**, in a list of their own, before they are
put in. -/
theorem insertAll_insertAll {entries gathered : List α} (h : (entries.map key).Nodup)
    (hgathered : (gathered.map key).Nodup) (news : List α) :
    insertAll key entries (insertAll key gathered news)
      = insertAll key (insertAll key entries gathered) news := by
  induction news generalizing gathered with
  | nil => rfl
  | cons a news ih =>
      rw [insertAll_cons, ih (nodup_key_insert hgathered a), insertAll_insert h hgathered,
        insertAll_cons]

/-- Entries with different keys build themselves. -/
theorem insertAll_nil_of_nodup {entries : List α} (h : (entries.map key).Nodup) :
    insertAll key [] entries = entries := by
  refine eq_of_entryAt key (nodup_key_insertAll nodup_key_nil entries) ?_ fun k => ?_
  · rw [map_key_insertAll nodup_key_nil, List.map_nil, List.nil_append, eraseDups_of_nodup h]
  · rw [entryAt_insertAll, lastAt_of_nodup h]
    exact Option.or_none

/-- **What is there already changes nothing.** -/
theorem insertAll_self {entries : List α} (h : (entries.map key).Nodup) :
    insertAll key entries entries = entries := by
  refine eq_of_entryAt key (nodup_key_insertAll h entries) ?_ fun k => ?_
  · have hdrop : (entries.map key).removeAll (entries.map key) = [] :=
      List.filter_eq_nil_iff.2 fun k hk => by simpa using hk
    rw [map_key_insertAll h, List.eraseDups_append, hdrop, eraseDups_of_nodup h]
    exact List.append_nil _
  · rw [entryAt_insertAll, lastAt_of_nodup h, Option.or_self]

end SecurityRules.Keyed
