/-
  SecurityRules.Proofs.Shorthand.Gap
  ────────────────────────────────
  **LAYOUT AS DATA.**

  A gap is a sequence of white space characters and comments.  A comment runs
  from `#` to the end of its line, which belongs to it.

    * `afterLayout_gap` — layout is skipped over any gap;
    * `exists_gap` — what is skipped in front of a token is a gap; at the end
      of a text a last comment may lack its line end (`exists_gap_and_tail`).
-/
import SecurityRules.Shorthand.Layout

namespace SecurityRules.Shorthand

open SecurityRules.Text

/-! ## §1. Gaps. -/

/-- One piece of layout. -/
inductive Filler where
  | white (c : Char) (h : isLayoutChar c = true)
  /-- A comment with its line end, a line feed or a carriage return with one. -/
  | comment (line : List Char) (h : ∀ c ∈ line, c ≠ '\n' ∧ c ≠ '\r') (withReturn : Bool)

namespace Filler

/-- How a line may end. -/
def lineEnd (withReturn : Bool) : List Char :=
  if withReturn then ['\r', '\n'] else ['\n']

def text : Filler → List Char
  | white c _ => [c]
  | comment line _ withReturn => '#' :: (line ++ lineEnd withReturn)

end Filler

/-- Layout between two tokens, which may be missing. -/
abbrev Gap := List Filler

def Gap.text (g : Gap) : List Char :=
  g.flatMap Filler.text

/-- A single space. -/
def Gap.space : Gap :=
  [.white ' ' rfl]

@[simp] theorem Gap.text_nil : Gap.text [] = [] := rfl

@[simp] theorem Gap.text_cons (f : Filler) (g : Gap) : Gap.text (f :: g) = f.text ++ Gap.text g :=
  rfl

theorem Gap.text_append (g h : Gap) : Gap.text (g ++ h) = Gap.text g ++ Gap.text h :=
  List.flatMap_append

/-- The characters that layout starts with. -/
def opensGap (c : Char) : Bool :=
  isLayoutChar c || c == '#'

/-- A gap that is not empty starts with white space or with `#`. -/
theorem Gap.exists_cons {g : Gap} (hg : g ≠ []) :
    ∃ c s, Gap.text g = c :: s ∧ opensGap c = true := by
  cases g with
  | nil => exact absurd rfl hg
  | cons f g =>
      cases f with
      | white c hc => exact ⟨c, Gap.text g, rfl, by simp [opensGap, hc]⟩
      | comment line hline withReturn =>
          exact ⟨'#', line ++ Filler.lineEnd withReturn ++ Gap.text g, rfl, by decide⟩

/-! ## §2. Gaps are skipped. -/

/-- Inside a comment everything up to the end of the line is skipped. -/
theorem skipLayout_line {line : List Char} (h : ∀ c ∈ line, c ≠ '\n' ∧ c ≠ '\r')
    (rest : List Char) : skipLayout true (line ++ rest) = skipLayout true rest := by
  induction line with
  | nil => rfl
  | cons c line ih =>
      have hc := h c List.mem_cons_self
      rw [List.cons_append, skipLayout, if_pos rfl]
      have hstay : (c != '\n' && c != '\r') = true := by simp [hc]
      rw [hstay]
      exact ih fun d hd => h d (List.mem_cons_of_mem _ hd)

/-- Whether a comment is closed is not decided by what stands inside its line.
-/
theorem lineEnds_line {line : List Char} (h : ∀ c ∈ line, c ≠ '\n' ∧ c ≠ '\r')
    (rest : List Char) : lineEnds (line ++ rest) = lineEnds rest := by
  induction line with
  | nil => rfl
  | cons c line ih =>
      have hc := h c List.mem_cons_self
      rw [List.cons_append, lineEnds]
      · exact ih fun d hd => h d (List.mem_cons_of_mem _ hd)
      · exact hc.1
      · exact hc.2

theorem afterLayout_white {c : Char} (hc : isLayoutChar c = true) (s : List Char) :
    afterLayout (c :: s) = afterLayout s := by
  rw [afterLayout, skipLayout, if_neg Bool.false_ne_true, if_pos hc]
  rfl

theorem afterLayout_hash {s : List Char} (hs : lineEnds s = true) :
    afterLayout ('#' :: s) = skipLayout true s := by
  rw [afterLayout, skipLayout, if_neg Bool.false_ne_true, if_neg (by decide), if_pos (by simp [hs])]

/-- A comment with its line end is skipped as a whole. -/
theorem afterLayout_comment {line : List Char} (h : ∀ c ∈ line, c ≠ '\n' ∧ c ≠ '\r')
    (withReturn : Bool) (rest : List Char) :
    afterLayout ('#' :: (line ++ Filler.lineEnd withReturn) ++ rest) = afterLayout rest := by
  have hends : lineEnds (line ++ (Filler.lineEnd withReturn ++ rest)) = true := by
    rw [lineEnds_line h]
    cases withReturn <;> rfl
  rw [List.cons_append, List.append_assoc, afterLayout_hash hends, skipLayout_line h]
  cases withReturn <;> rfl

/-- Each piece of a gap is skipped. -/
theorem afterLayout_filler (f : Filler) (rest : List Char) :
    afterLayout (f.text ++ rest) = afterLayout rest := by
  cases f with
  | white c hc => exact afterLayout_white hc rest
  | comment line hline withReturn => exact afterLayout_comment hline withReturn rest

/-- Layout is skipped over any gap. -/
theorem afterLayout_gap (g : Gap) (rest : List Char) :
    afterLayout (Gap.text g ++ rest) = afterLayout rest := by
  induction g with
  | nil => rfl
  | cons f g ih => rw [Gap.text_cons, List.append_assoc, afterLayout_filler, ih]

/-- Nothing is left behind a gap that ends its text. -/
theorem afterLayout_gap_eq_nil (g : Gap) : afterLayout (Gap.text g) = [] := by
  have hskip := afterLayout_gap g []
  rwa [List.append_nil] at hskip

/-- No layout is skipped where none starts. -/
theorem afterLayout_of_not_opensGap {c : Char} (hc : opensGap c = false) (s : List Char) :
    afterLayout (c :: s) = c :: s := by
  obtain ⟨hw, hh⟩ : isLayoutChar c = false ∧ (c == '#') = false := by
    simpa [opensGap] using hc
  rw [afterLayout, skipLayout, if_neg Bool.false_ne_true, if_neg (by simp [hw]),
    if_neg (by simp [hh])]

/-- A gap is skipped up to where a token starts. -/
theorem afterLayout_gap_cons (g : Gap) {c : Char} (hc : opensGap c = false) (s : List Char) :
    afterLayout (Gap.text g ++ c :: s) = c :: s := by
  rw [afterLayout_gap]
  exact afterLayout_of_not_opensGap hc s

/-! ## §3. What is skipped is a gap. -/

/-- A line that ends properly ends with the text or with a line end. -/
theorem exists_line {s : List Char} (hs : lineEnds s = true) :
    ∃ line : List Char, (∀ c ∈ line, c ≠ '\n' ∧ c ≠ '\r')
      ∧ (s = line ∨ ∃ withReturn rest, s = line ++ (Filler.lineEnd withReturn ++ rest)) := by
  fun_induction lineEnds s with
  | case1 => exact ⟨[], by simp, .inl rfl⟩
  | case2 rest => exact ⟨[], by simp, .inr ⟨false, rest, rfl⟩⟩
  | case3 rest =>
      cases rest with
      | nil => simp at hs
      | cons c rest =>
          obtain rfl : c = '\n' := by simpa using hs
          exact ⟨[], by simp, .inr ⟨true, rest, rfl⟩⟩
  | case4 c s hn hr ih =>
      obtain ⟨line, hline, h⟩ := ih hs
      refine ⟨c :: line, ?_, ?_⟩
      · intro d hd
        rcases List.mem_cons.1 hd with rfl | hd
        · exact ⟨hn, hr⟩
        · exact hline d hd
      · -- one more character in the line, the same end
        rcases h with rfl | ⟨withReturn, rest, rfl⟩
        · exact .inl rfl
        · exact .inr ⟨withReturn, rest, rfl⟩

/-- A comment that ends with its text. -/
def IsLastComment (s : List Char) : Prop :=
  ∃ line : List Char, (∀ c ∈ line, c ≠ '\n' ∧ c ≠ '\r') ∧ s = '#' :: line

/-- What is skipped is a gap, behind which a last comment may stand where the
text ends. -/
theorem exists_gap_and_tail (s : List Char) :
    ∃ (g : Gap) (tail : List Char), s = Gap.text g ++ tail ++ afterLayout s
      ∧ (tail = [] ∨ afterLayout s = [] ∧ IsLastComment tail) := by
  -- by the length of the text: a comment is skipped up to the end of its line
  induction hn : s.length using Nat.strongRecOn generalizing s with
  | ind n ih =>
      cases s with
      | nil => exact ⟨[], [], rfl, .inl rfl⟩
      | cons c s =>
          subst hn
          by_cases hw : isLayoutChar c = true
          · obtain ⟨g, tail, hs, htail⟩ := ih s.length (Nat.lt_succ_self _) s rfl
            rw [afterLayout_white hw]
            exact ⟨.white c hw :: g, tail, congrArg (c :: ·) hs, htail⟩
          by_cases hh : c = '#' ∧ lineEnds s = true
          · obtain ⟨rfl, hends⟩ := hh
            obtain ⟨line, hline, rfl | ⟨withReturn, rest, rfl⟩⟩ := exists_line hends
            · -- the line is the last one, and the comment takes all that is left
              have hend : afterLayout ('#' :: s) = [] := by
                have hskip := skipLayout_line hline []
                rw [List.append_nil] at hskip
                rw [afterLayout_hash hends, hskip]
                rfl
              refine ⟨[], '#' :: s, ?_, .inr ⟨hend, s, hline, rfl⟩⟩
              rw [hend, List.append_nil]
              rfl
            · have hlt : rest.length
                  < ('#' :: (line ++ (Filler.lineEnd withReturn ++ rest))).length := by
                simp only [List.length_cons, List.length_append]
                omega
              obtain ⟨g, tail, hs, htail⟩ := ih rest.length hlt rest rfl
              have hskip := afterLayout_comment hline withReturn rest
              rw [List.cons_append, List.append_assoc] at hskip
              rw [hskip]
              refine ⟨.comment line hline withReturn :: g, tail, ?_, htail⟩
              calc '#' :: (line ++ (Filler.lineEnd withReturn ++ rest))
                  = '#' :: (line ++ Filler.lineEnd withReturn) ++ rest := by
                    rw [List.cons_append, List.append_assoc]
                _ = '#' :: (line ++ Filler.lineEnd withReturn)
                      ++ (Gap.text g ++ tail ++ afterLayout rest) := congrArg _ hs
                _ = Gap.text (.comment line hline withReturn :: g) ++ tail
                      ++ afterLayout rest := by
                    rw [Gap.text_cons, Filler.text]
                    simp only [List.append_assoc]
          · have hnone : afterLayout (c :: s) = c :: s := by
              rw [afterLayout, skipLayout, if_neg Bool.false_ne_true, if_neg hw,
                if_neg (by simpa using hh)]
            rw [hnone]
            exact ⟨[], [], rfl, .inl rfl⟩

/-- What is skipped in front of a token is a gap. -/
theorem exists_gap {s : List Char} (hs : afterLayout s ≠ []) :
    ∃ g : Gap, s = Gap.text g ++ afterLayout s := by
  obtain ⟨g, tail, h, rfl | ⟨hnil, -⟩⟩ := exists_gap_and_tail s
  · rw [List.append_nil] at h
    exact ⟨g, h⟩
  · exact absurd hnil hs

end SecurityRules.Shorthand
