/-
  SecurityRules.Proofs.Result
  ────────────────────────────────
  **RESULTS AND THEIR FAULTS.**

  Rules and texts are put together from results any of which may be a fault.
  What is made of several is there when all of them are; otherwise it is the
  fault of the first that is not.  Both are said once here, for each way of
  putting results together.

    * `Except.bind_eq_ok`, `Except.map_eq_ok`, … — when a result is there, and
      what it is;
    * `faultOf_bind_bind`, `faultOf_map`, … — which fault a result leaves;
    * `Raises.bind`, `Raises.map` — which faults it can leave at all.
-/

namespace SecurityRules

variable {ε α β γ : Type}

/-! ## §1. Results that are there. -/

theorem Except.bind_eq_ok {x : Except ε α} {f : α → Except ε β} {b : β} :
    (x >>= f) = .ok b ↔ ∃ a, x = .ok a ∧ f a = .ok b := by
  cases x with
  | error e => simp [bind, Except.bind]
  | ok a => simp [bind, Except.bind]

theorem Except.map_eq_ok {x : Except ε α} {f : α → β} {b : β} :
    x.map f = .ok b ↔ ∃ a, x = .ok a ∧ f a = b := by
  cases x with
  | error e => simp [Except.map]
  | ok a => simp [Except.map]

theorem Except.pure_eq_ok {a b : α} : (pure a : Except ε α) = .ok b ↔ a = b := by
  simp [pure, Except.pure]

/-- What is made of two results is there when both of them are. -/
theorem Except.bind_bind_eq_ok {x : Except ε α} {y : Except ε β} {f : α → β → γ}
    {c : γ} :
    (x >>= fun a => y >>= fun b => pure (f a b)) = .ok c ↔
      ∃ a b, x = .ok a ∧ y = .ok b ∧ f a b = c := by
  simp only [Except.bind_eq_ok, Except.pure_eq_ok]
  constructor
  · rintro ⟨a, ha, b, hb, h⟩
    exact ⟨a, b, ha, hb, h⟩
  · rintro ⟨a, b, ha, hb, h⟩
    exact ⟨a, ha, b, hb, h⟩

/-- Wrapping a fault does not touch a result. -/
theorem Except.mapError_eq_ok {x : Except ε α} {f : ε → γ} {a : α} :
    x.mapError f = .ok a ↔ x = .ok a := by
  cases x with
  | error e => exact iff_of_false (fun h => nomatch h) (fun h => nomatch h)
  | ok b =>
      show Except.ok b = .ok a ↔ Except.ok b = .ok a
      rw [Except.ok.injEq, Except.ok.injEq]

/-- Results are the same if what is kept of them is. -/
theorem Except.map_some_inj {x y : Except ε α} (h : x.map some = y.map some) : x = y := by
  cases x with
  | error e =>
      cases y with
      | error e' => cases h; rfl
      | ok b => cases h
  | ok a =>
      cases y with
      | error e' => cases h
      | ok b => cases h; rfl

/-- A result is what is left of it as an option. -/
theorem Except.eq_ok_of_toOption {x : Except ε α} {a : α} (h : x.toOption = some a) :
    x = .ok a := by
  cases x with
  | error e => cases h
  | ok b => cases h; rfl

/-! ## §2. Lists of results. -/

/-- The results of a list are that of its head and those of its tail. -/
theorem mapM_cons_eq_ok {f : α → Except ε β} {a : α} {as : List α} {bs : List β} :
    (a :: as).mapM f = .ok bs ↔
      ∃ b rest, f a = .ok b ∧ as.mapM f = .ok rest ∧ b :: rest = bs := by
  rw [List.mapM_cons]
  cases f a <;> cases as.mapM f <;> simp [bind, Except.bind, pure, Except.pure]

/-- There is one result for each entry. -/
theorem length_of_mapM {f : α → Except ε β} {as : List α} {bs : List β}
    (h : as.mapM f = .ok bs) : bs.length = as.length := by
  induction as generalizing bs with
  | nil =>
      cases h
      rfl
  | cons a as ih =>
      obtain ⟨b, rest, -, hrest, rfl⟩ := mapM_cons_eq_ok.1 h
      rw [List.length_cons, List.length_cons, ih hrest]

/-! ## §3. The fault of a result. -/

/-- The fault that stands in the place of a result, if one does. -/
def faultOf : Except ε α → Option ε
  | .ok _ => none
  | .error fault => some fault

theorem faultOf_eq_some {x : Except ε α} {fault : ε} :
    faultOf x = some fault ↔ x = .error fault := by
  cases x <;> simp [faultOf]

theorem faultOf_eq_none {x : Except ε α} : faultOf x = none ↔ ∃ a, x = .ok a := by
  cases x <;> simp [faultOf]

@[simp] theorem faultOf_map (x : Except ε α) (f : α → β) : faultOf (x.map f) = faultOf x := by
  cases x <;> rfl

/-- Wrapping a result wraps its fault. -/
theorem faultOf_mapError (x : Except ε α) (f : ε → γ) :
    faultOf (x.mapError f) = (faultOf x).map f := by
  cases x <;> rfl

/-- What is found first is found at the head or behind it. -/
theorem findSome?_cons_eq_or (f : α → Option β) (a : α) (as : List α) :
    (a :: as).findSome? f = (f a).or (as.findSome? f) := by
  rw [List.findSome?_cons]
  cases f a <;> rfl

/-- What cannot fail adds no fault. -/
theorem faultOf_bind_pure (x : Except ε α) (f : α → β) :
    faultOf (x >>= fun a => pure (f a)) = faultOf x := by
  cases x <;> rfl

/-- What always succeeds adds no fault. -/
theorem faultOf_bind_of_ok {x : Except ε α} {f : α → Except ε β}
    (h : ∀ a, x = .ok a → ∃ b, f a = .ok b) : faultOf (x >>= f) = faultOf x := by
  cases x with
  | error fault => rfl
  | ok a => exact faultOf_eq_none.2 (h a rfl)

/-- Of two results the first fault wins. -/
theorem faultOf_bind_bind (x : Except ε α) (y : Except ε β) (f : α → β → γ) :
    faultOf (x >>= fun a => y >>= fun b => pure (f a b)) = (faultOf x).or (faultOf y) := by
  cases x with
  | error fault => rfl
  | ok a => cases y <;> rfl

/-- What is made of a result comes too late to leave the first fault. -/
theorem faultOf_or_bind (x : Except ε α) (f : α → Except ε β) :
    (faultOf x).or (faultOf (x >>= f)) = faultOf (x >>= f) := by
  cases x <;> rfl

/-! ## §4. The faults that may be left. -/

/-- Whether a result can only leave faults with the property `P`. -/
def Raises (P : ε → Prop) (x : Except ε α) : Prop :=
  ∀ fault, x = .error fault → P fault

section Raises

variable {P : ε → Prop}

theorem raises_ok (a : α) : Raises P (.ok a : Except ε α) := by
  intro fault h
  cases h

theorem raises_error {fault : ε} (h : P fault) : Raises P (.error fault : Except ε α) := by
  intro other hother
  cases hother
  exact h

/-- What is made of a result without further ado fails only as the result does.
-/
theorem Raises.map {x : Except ε α} (h : Raises P x) (f : α → β) : Raises P (x.map f) := by
  intro fault hfault
  refine h fault ?_
  rwa [← faultOf_eq_some, faultOf_map, faultOf_eq_some] at hfault

/-- A result and what follows it fail as asked for where both do. -/
theorem Raises.bind {x : Except ε α} {f : α → Except ε β} (hx : Raises P x)
    (hf : ∀ a, Raises P (f a)) : Raises P (x >>= f) := by
  cases x with
  | error fault => exact raises_error (hx fault rfl)
  | ok a => exact hf a

end Raises

end SecurityRules
