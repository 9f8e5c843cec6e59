/-
  SecurityRules.Shorthand.Reading
  ────────────────────────────────
  **THE OUTCOME OF READING.**

  A reader looks at the front of a text, given as a list of characters, and
  answers with a `Reading`: what it found and the text that follows, or why it
  stopped.  A stop keeps three things:

    * the text in front of which reading stopped;
    * whether the reader was committed — if so the stop is final, if not
      another reader may be tried from the same place;
    * notes on what was expected, from the innermost reader outwards.

  `many` repeats a reader for as long as it makes progress; `AdvancesAt` says
  that a reader does.
-/

namespace SecurityRules.Shorthand

/-! ## §1. Stops. -/

/-- A remark on a stop. -/
inductive Note where
  /-- A field was referred to inside a text that is kept as it stands. -/
  | referenceInRawText
  /-- The path of a lookup was expected. -/
  | path
  | operand
  | expression
  | predicate
  deriving DecidableEq, Repr

/-- Where and why reading stopped. -/
structure Stop where
  /-- The text that was left. -/
  rest : List Char
  /-- Whether the stop is final. -/
  committed : Bool
  /-- Remarks, the innermost first. -/
  notes : List Note
  deriving DecidableEq, Repr

/-- What came of reading a text. -/
inductive Reading (α : Type) where
  | found (value : α) (rest : List Char)
  | failed (stop : Stop)
  deriving DecidableEq, Repr

namespace Reading

variable {α β : Type}

/-- Nothing was found here, and another reader may be tried. -/
def miss (here : List Char) : Reading α :=
  .failed ⟨here, false, []⟩

/-- Nothing can be found here. -/
def refuse (here : List Char) (notes : List Note) : Reading α :=
  .failed ⟨here, true, notes⟩

/-! ## §2. Combining readings. -/

/-- Goes on with what was found and the text behind it. -/
def andThen (r : Reading α) (next : α → List Char → Reading β) : Reading β :=
  match r with
  | .found a rest => next a rest
  | .failed stop => .failed stop

/-- Changes the value that was found. -/
def map (f : α → β) : Reading α → Reading β
  | .found a rest => .found (f a) rest
  | .failed stop => .failed stop

/-- Tries another reading where the first one stopped without commitment. -/
def orElse (r : Reading α) (other : Unit → Reading α) : Reading α :=
  match r with
  | .found a rest => .found a rest
  | .failed stop => if stop.committed then .failed stop else other ()

/-- Makes a stop final. -/
def commit : Reading α → Reading α
  | .found a rest => .found a rest
  | .failed stop => .failed { stop with committed := true }

/-- Adds a remark to a stop. -/
def noting (note : Note) : Reading α → Reading α
  | .found a rest => .found a rest
  | .failed stop => .failed { stop with notes := stop.notes ++ [note] }

section Laws

variable (a : α) (rest : List Char) (stop : Stop)

@[simp] theorem andThen_found (next : α → List Char → Reading β) :
    (found a rest).andThen next = next a rest := rfl

@[simp] theorem andThen_failed (next : α → List Char → Reading β) :
    (failed stop).andThen next = failed stop := rfl

@[simp] theorem map_found (f : α → β) : (found a rest).map f = found (f a) rest := rfl

@[simp] theorem map_failed (f : α → β) :
    (failed stop : Reading α).map f = failed stop := rfl

@[simp] theorem orElse_found (other : Unit → Reading α) :
    (found a rest).orElse other = found a rest := rfl

/-- A stop behind a commitment is final. -/
@[simp] theorem orElse_committed (here : List Char) (notes : List Note)
    (other : Unit → Reading α) :
    (failed ⟨here, true, notes⟩ : Reading α).orElse other = failed ⟨here, true, notes⟩ := rfl

/-- A stop in front of one lets the other reader try. -/
@[simp] theorem orElse_open (here : List Char) (notes : List Note)
    (other : Unit → Reading α) :
    (failed ⟨here, false, notes⟩ : Reading α).orElse other = other () := rfl

@[simp] theorem commit_found : (found a rest).commit = found a rest := rfl

@[simp] theorem commit_failed :
    (failed stop : Reading α).commit = failed { stop with committed := true } := rfl

@[simp] theorem noting_found (note : Note) :
    (found a rest).noting note = found a rest := rfl

@[simp] theorem noting_failed (note : Note) :
    (failed stop : Reading α).noting note
      = failed { stop with notes := stop.notes ++ [note] } := rfl

end Laws

/-- What is found is made of what was found. -/
theorem map_eq_found {r : Reading α} {f : α → β} {b : β} {rest : List Char} :
    r.map f = .found b rest ↔ ∃ a, r = .found a rest ∧ f a = b := by
  cases r with
  | found a mid => simp only [map_found, found.injEq]; grind
  | failed stop => simp

/-- What two readers find is found by the first and then, behind it, by the
second. -/
theorem andThen_eq_found {r : Reading α} {next : α → List Char → Reading β} {b : β}
    {rest : List Char} :
    r.andThen next = .found b rest ↔ ∃ a mid, r = .found a mid ∧ next a mid = .found b rest := by
  cases r with
  | found a mid => simp only [andThen_found, found.injEq]; grind
  | failed stop => simp

/-- A commitment changes what a stop means, and nothing about what is found. -/
theorem commit_eq_found {r : Reading α} {a : α} {rest : List Char} :
    r.commit = .found a rest ↔ r = .found a rest := by
  cases r <;> simp

theorem noting_eq_found {r : Reading α} {note : Note} {a : α} {rest : List Char} :
    r.noting note = .found a rest ↔ r = .found a rest := by
  cases r <;> simp

/-- A second reader only finds something where the first one stopped in front of
a commitment. -/
theorem orElse_eq_found {r : Reading α} {other : Unit → Reading α} {a : α}
    {rest : List Char} :
    r.orElse other = .found a rest ↔
      r = .found a rest
        ∨ ∃ here notes, r = .failed ⟨here, false, notes⟩ ∧ other () = .found a rest := by
  rcases r with ⟨b, mid⟩ | ⟨here, committed, notes⟩
  · simp
  · cases committed <;> simp

/-! ## §3. Repetition. -/

/-- Reads items one after another until one is missing, which is where the
text left over starts. An item that takes nothing ends the repetition too. -/
def many (item : List Char → Reading α) (s : List Char) : Reading (List α) :=
  match item s with
  | .found a rest =>
      if rest.length < s.length then (many item rest).map (a :: ·) else .found [] s
  | .failed stop => if stop.committed then .failed stop else .found [] s
termination_by s.length

/-- A repetition ends, without harm, where no item starts. -/
theorem many_of_miss {item : List Char → Reading α} {s here : List Char} {notes : List Note}
    (h : item s = .failed ⟨here, false, notes⟩) : many item s = .found [] s := by
  rw [many, h]
  rfl

/-- Inside an item the repetition stops as the item does. -/
theorem many_of_committed {item : List Char → Reading α} {s here : List Char}
    {notes : List Note} (h : item s = .failed ⟨here, true, notes⟩) :
    many item s = .failed ⟨here, true, notes⟩ := by
  rw [many, h]
  rfl

/-- Behind an item that took something the repetition goes on. -/
theorem many_of_found {item : List Char → Reading α} {s rest : List Char} {a : α}
    (h : item s = .found a rest) (hlt : rest.length < s.length) :
    many item s = (many item rest).map (a :: ·) := by
  rw [many, h]
  exact if_pos hlt

/-- Repetition depends on the item only where text is left to read. -/
theorem many_congr {item item' : List Char → Reading α} {s : List Char}
    (h : ∀ r : List Char, r.length ≤ s.length → item r = item' r) :
    many item s = many item' s := by
  fun_induction many item s with
  | case1 s a mid hitem hlt ih =>
      rw [many_of_found (h s (Nat.le_refl _) ▸ hitem) hlt,
        ih fun r hr => h r (Nat.le_trans hr (Nat.le_of_lt hlt))]
  | case2 s a mid hitem hlt =>
      rw [many, ← h s (Nat.le_refl _), hitem]
      exact (if_neg hlt).symm
  | case3 s stop hitem hc =>
      rw [many, ← h s (Nat.le_refl _), hitem]
      exact (if_pos hc).symm
  | case4 s stop hitem hc =>
      rw [many, ← h s (Nat.le_refl _), hitem]
      exact (if_neg hc).symm

/-! ## §4. Progress. -/

/-- What `reader` finds at `s` leaves a proper end of `s`. -/
def AdvancesAt (reader : List Char → Reading α) (s : List Char) : Prop :=
  ∀ a rest, reader s = .found a rest → rest <:+ s ∧ rest.length < s.length

/-- What is made of a reading takes as much of the text. -/
theorem AdvancesAt.map {reader : List Char → Reading α} {s : List Char}
    (h : AdvancesAt reader s) (f : α → β) : AdvancesAt (fun s => (reader s).map f) s := by
  intro b rest hb
  obtain ⟨a, ha, -⟩ := map_eq_found.1 hb
  exact h a rest ha

/-- What a repetition leaves is an end of its text, provided that the item
advances wherever it is tried. -/
theorem suffix_of_many {item : List Char → Reading α} {s rest : List Char} {as : List α}
    (hitem : ∀ r : List Char, r.length ≤ s.length → AdvancesAt item r)
    (h : many item s = .found as rest) : rest <:+ s := by
  fun_induction many item s generalizing as rest with
  | case1 s a mid hs hlt ih =>
      obtain ⟨as', h', rfl⟩ := map_eq_found.1 h
      have hmid := (hitem s (Nat.le_refl _) a mid hs).1
      exact (ih (fun r hr => hitem r (Nat.le_trans hr (Nat.le_of_lt hlt))) h').trans hmid
  | case2 s a mid hs hlt =>
      cases h
      exact List.suffix_refl _
  | case3 s stop hs hc => simp at h
  | case4 s stop hs hc =>
      cases h
      exact List.suffix_refl _

end Reading

end SecurityRules.Shorthand
