/-
  SecurityRules.Proofs.Shorthand.Repetition
  ────────────────────────────────
  **REPETITION WITHOUT A SAFEGUARD.**

  `Reading.many` breaks off when an item takes nothing, so it ends whatever it
  repeats.  `Repeats` is repetition without this safeguard: it goes on as long
  as items are found, and has no rule for an item that takes nothing.  A
  repetition that goes on for ever, or meets such an item, has no derivation.

    * `endsAs_repeats` — a repetition of items that advance comes to an end, in
      one way only, and this is what `many` gives;
    * `many_layoutPiece` — layout is skipped by repeating its pieces, runs of
      white space and comments;
    * `loopAt_layoutPiece`, `loopAt_callSuffix`, `loopAt_link` — every repetition
      of the shorthand takes something in each round, and ends.
-/
import SecurityRules.Proofs.Shorthand.Gap
import SecurityRules.Proofs.Shorthand.Phrase

namespace SecurityRules.Shorthand

open SecurityRules.Text

variable {α : Type}

/-! ## §1. How a repetition ends. -/

/-- `Repeats Item s x`: reading items from `s` on comes to an end, with `x`,
where `Item` says how reading one item ends. -/
inductive Repeats (Item : List Char → Reading α → Prop) :
    List Char → Reading (List α) → Prop where
  | done {s : List Char} {stop : Stop} (hitem : Item s (.failed stop))
      (hopen : stop.committed = false) : Repeats Item s (.found [] s)
  | refused {s : List Char} {stop : Stop} (hitem : Item s (.failed stop))
      (hfinal : stop.committed = true) : Repeats Item s (.failed stop)
  /-- One round. It must not leave as much text as it found. -/
  | round {s rest : List Char} {a : α} {x : Reading (List α)} (hitem : Item s (.found a rest))
      (htaken : rest.length ≠ s.length) (hmore : Repeats Item rest x) :
      Repeats Item s (x.map (a :: ·))

/-- Whether reading at `s`, as `Ends` describes it, comes to an end in one way
only, which is what `reader` gives. -/
def EndsAs (Ends : List Char → Reading α → Prop) (reader : List Char → Reading α)
    (s : List Char) : Prop :=
  ∀ x, Ends s x ↔ x = reader s

namespace EndsAs

variable {Ends : List Char → Reading α → Prop} {reader : List Char → Reading α} {s : List Char}
  {x y : Reading α}

/-- What the function gives is an end by the rules. -/
theorem ends (h : EndsAs Ends reader s) (hs : reader s = x) : Ends s x :=
  (h x).2 hs.symm

/-- The rules have no other end. -/
theorem unique (h : EndsAs Ends reader s) (hs : reader s = x) (hy : Ends s y) : y = x :=
  ((h y).1 hy).trans hs

end EndsAs

/-- How reading with `reader` ends. -/
def Returns (reader : List Char → Reading α) (s : List Char) (x : Reading α) : Prop :=
  x = reader s

theorem endsAs_returns (reader : List Char → Reading α) (s : List Char) :
    EndsAs (Returns reader) reader s :=
  fun _ => Iff.rfl

/-- **A repetition of items that advance comes to an end**, and breaks off
nowhere for want of progress. -/
theorem endsAs_repeats {Item : List Char → Reading α → Prop} {item : List Char → Reading α}
    {s : List Char} (hitem : ∀ r, r <:+ s → EndsAs Item item r)
    (hadv : ∀ r, r <:+ s → Reading.AdvancesAt item r) :
    EndsAs (Repeats Item) (Reading.many item) s := by
  have here := hitem s (List.suffix_refl s)
  fun_induction Reading.many item s with
  | case1 s a rest hs hlt ih =>
      have hrest : rest <:+ s := (hadv s (List.suffix_refl s) a rest hs).1
      have hmore : EndsAs (Repeats Item) (Reading.many item) rest :=
        ih (fun r hr => hitem r (hr.trans hrest)) (fun r hr => hadv r (hr.trans hrest))
          (hitem rest hrest)
      intro x
      rw [Reading.many_of_found hs hlt]
      constructor
      · intro h
        cases h with
        | done hstop => cases here.unique hs hstop
        | refused hstop => cases here.unique hs hstop
        | round hfound _ hx =>
            cases here.unique hs hfound
            rw [hmore.unique rfl hx]
      · rintro rfl
        exact .round (here.ends hs) (Nat.ne_of_lt hlt) (hmore.ends rfl)
  | case2 s a rest hs hle =>
      -- an item that is found has taken something
      exact absurd (hadv s (List.suffix_refl s) a rest hs).2 hle
  | case3 s stop hs hfinal =>
      intro x
      rw [Reading.many, hs]
      simp only [if_pos hfinal]
      constructor
      · intro h
        cases h with
        | done hstop hopen =>
            cases here.unique hs hstop
            simp [hfinal] at hopen
        | refused hstop =>
            cases here.unique hs hstop
            rfl
        | round hfound => cases here.unique hs hfound
      · rintro rfl
        exact .refused (here.ends hs) hfinal
  | case4 s stop hs hopen =>
      intro x
      rw [Reading.many, hs]
      simp only [if_neg hopen]
      constructor
      · intro h
        cases h with
        | done => rfl
        | refused hstop hfinal =>
            cases here.unique hs hstop
            exact absurd hfinal hopen
        | round hfound => cases here.unique hs hfound
      · rintro rfl
        exact .done (here.ends hs) (by simpa using hopen)

/-! ## §2. Layout, piece by piece. -/

/-- The characters that a comment goes on with. -/
def isCommentChar (c : Char) : Bool :=
  c != '\n' && c != '\r'

/-- What ends a comment is layout itself. -/
theorem isLayoutChar_of_not_isCommentChar {c : Char} (h : ¬isCommentChar c = true) :
    isLayoutChar c = true := by
  by_cases hn : c = '\n'
  · rw [hn]
    rfl
  · have hr : c = '\r' := by
      simpa [isCommentChar, hn] using h
    rw [hr]
    rfl

/-- Reads one piece of layout: a run of white space, or a comment up to the end
of its line. -/
def layoutPiece : List Char → Reading Unit
  | [] => .miss []
  | c :: rest =>
      if isLayoutChar c then
        .found () (rest.dropWhile isLayoutChar)
      else if c == '#' && lineEnds rest then
        .found () (rest.dropWhile isCommentChar)
      else
        .miss (c :: rest)

/-- A piece of layout takes something: a run of white space its first character,
a comment its mark. -/
theorem advancesAt_layoutPiece (s : List Char) : Reading.AdvancesAt layoutPiece s := by
  have hdrop (p : Char → Bool) (c : Char) (rest : List Char) :
      rest.dropWhile p <:+ c :: rest ∧ (rest.dropWhile p).length < (c :: rest).length := by
    have hs : rest.dropWhile p <:+ rest := List.dropWhile_suffix _
    exact ⟨hs.trans (List.suffix_cons _ _), Nat.lt_succ_of_le hs.length_le⟩
  intro u rest h
  unfold layoutPiece at h
  split at h
  · simp [Reading.miss] at h
  · next c s' =>
      split at h
      · cases h
        exact hdrop _ _ _
      · split at h
        · cases h
          exact hdrop _ _ _
        · simp [Reading.miss] at h

/-- White space in front makes no difference to what is left behind layout. -/
theorem afterLayout_dropWhile (s : List Char) :
    afterLayout (s.dropWhile isLayoutChar) = afterLayout s := by
  induction s with
  | nil => rfl
  | cons c s ih =>
      by_cases hc : isLayoutChar c = true
      · rw [List.dropWhile_cons_of_pos hc, ih, afterLayout_white hc]
      · rw [List.dropWhile_cons_of_neg hc]

/-- The line end behind a comment is layout. -/
theorem skipLayout_comment (s : List Char) :
    skipLayout true s = afterLayout (s.dropWhile isCommentChar) := by
  induction s with
  | nil => rfl
  | cons c s ih =>
      have hstep : skipLayout true (c :: s) = skipLayout (isCommentChar c) s := rfl
      by_cases hc : isCommentChar c = true
      · rw [hstep, hc, ih, List.dropWhile_cons_of_pos hc]
      · rw [hstep, Bool.eq_false_iff.2 hc, List.dropWhile_cons_of_neg hc,
          afterLayout_white (isLayoutChar_of_not_isCommentChar hc)]
        rfl

/-- Behind a piece of layout there is the rest of the layout. -/
theorem afterLayout_of_layoutPiece {s rest : List Char} {u : Unit}
    (h : layoutPiece s = .found u rest) : afterLayout rest = afterLayout s := by
  unfold layoutPiece at h
  split at h
  · simp [Reading.miss] at h
  · next c s' =>
      split at h
      · next hc =>
          cases h
          rw [afterLayout_dropWhile, afterLayout_white hc]
      · split at h
        · next hc =>
            cases h
            simp only [Bool.and_eq_true, beq_iff_eq] at hc
            rw [hc.1, afterLayout_hash hc.2, skipLayout_comment]
        · simp [Reading.miss] at h

/-- Where no piece of layout starts, none is skipped. -/
theorem afterLayout_of_no_piece {s : List Char} {stop : Stop} (h : layoutPiece s = .failed stop) :
    afterLayout s = s ∧ stop.committed = false := by
  unfold layoutPiece at h
  split at h
  · cases h
    exact ⟨rfl, rfl⟩
  · next c s' =>
      split at h
      · simp at h
      · next hc =>
          split at h
          · simp at h
          · next hc' =>
              cases h
              rw [afterLayout, skipLayout, if_neg Bool.false_ne_true, if_neg hc, if_neg hc']
              exact ⟨rfl, rfl⟩

/-- **Layout is skipped by repeating its pieces.** -/
theorem many_layoutPiece (s : List Char) :
    ∃ pieces, Reading.many layoutPiece s = .found pieces (afterLayout s) := by
  fun_induction Reading.many layoutPiece s with
  | case1 s u rest hs hlt ih =>
      obtain ⟨pieces, hp⟩ := ih
      rw [hp, afterLayout_of_layoutPiece hs]
      exact ⟨u :: pieces, rfl⟩
  | case2 s u rest hs hle => exact absurd (advancesAt_layoutPiece s u rest hs).2 hle
  | case3 s stop hs hfinal => simp [(afterLayout_of_no_piece hs).2] at hfinal
  | case4 s stop hs hopen =>
      rw [(afterLayout_of_no_piece hs).1]
      exact ⟨[], rfl⟩

/-! ## §3. The repetitions of the shorthand. -/

/-- Whether repeating `item` at `s` is safe without a safeguard: what is found
takes something, and the repetition comes to an end. -/
def LoopAt (item : List Char → Reading α) (s : List Char) : Prop :=
  Reading.AdvancesAt item s ∧ EndsAs (Repeats (Returns item)) (Reading.many item) s

/-- **A repetition whose items take something ends**, with what the reader
gives. -/
theorem loopAt_of_advancesAt {item : List Char → Reading α}
    (hadv : ∀ r, Reading.AdvancesAt item r) (s : List Char) : LoopAt item s :=
  ⟨hadv s, endsAs_repeats (fun r _ => endsAs_returns item r) fun r _ => hadv r⟩

theorem loopAt_layoutPiece (s : List Char) : LoopAt layoutPiece s :=
  loopAt_of_advancesAt advancesAt_layoutPiece s

theorem loopAt_callSuffix (s : List Char) : LoopAt callSuffix s :=
  loopAt_of_advancesAt advancesAt_callSuffix s

theorem loopAt_link (c : Connective) (s : List Char) :
    LoopAt (link c (Level.memberOf c).reader) s :=
  loopAt_of_advancesAt
    (fun _ => advancesAt_link fun r _ => (Level.memberOf c).advancesAt_reader r) s

end SecurityRules.Shorthand
