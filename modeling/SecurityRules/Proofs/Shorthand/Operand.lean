/-
  SecurityRules.Proofs.Shorthand.Operand
  ────────────────────────────────
  **WHERE OPERANDS ARE READ.**

  For each kind of operand: which spellings there are, and what may stand
  behind one so that it is read as itself.

    * Names and paths are runs of characters (`run_eq_found_iff`).
    * A literal is a text that one of its readers takes up entirely
      (`IsLiteral`).
    * An operand is well spelled when its shorthand spells it and nothing else
      (`Operand.WellSpelled`), and ends in front of a text that does not run on
      from it (`Operand.EndsBefore`).

  Main statement: `operandHere_eq_found_iff`.
-/
import SecurityRules.Predicate.Shorthand
import SecurityRules.Shorthand.Expression
import SecurityRules.Proofs.Shorthand.BareWord

namespace SecurityRules.Shorthand

open SecurityRules.Text

/-! ## §1. Names and paths. -/

/-- Whether a text is a run of characters of the class `next`, the first of
which is of the class `first`. -/
def isRun (first next : Char → Bool) : List Char → Bool
  | [] => false
  | c :: rest => first c && rest.all next

/-- Whether a text is a name. -/
def isName : List Char → Bool :=
  isRun isNameStart isNameChar

/-- Whether a text is a path, one or more word characters. -/
def isPath : List Char → Bool :=
  isRun isWordChar isWordChar

/-- Reads a run. -/
def run (first next : Char → Bool) : List Char → Reading String
  | [] => .miss []
  | c :: rest =>
      if first c then
        .found (String.ofList (c :: rest.takeWhile next)) (rest.dropWhile next)
      else
        .miss (c :: rest)

/-- The reader of names takes a run. -/
theorem name_eq_run : name = run isNameStart isNameChar := by
  funext s
  cases s <;> rfl

/-- So does the reader of paths, where every character of a word may come first.
-/
theorem path_eq_run : path = run isWordChar isWordChar := by
  funext s
  cases s <;> rfl

/-- A run ends where the next character is of another class. -/
theorem dropWhile_append_of_all {p : Char → Bool} {front rest : List Char}
    (hf : front.all p = true) (hr : rest.head?.any p = false) :
    (front ++ rest).dropWhile p = rest := by
  rw [List.dropWhile_append_of_pos (List.all_eq_true.1 hf)]
  cases rest with
  | nil => rfl
  | cons c rest => exact List.dropWhile_cons_of_neg (by simpa using hr)

theorem takeWhile_append_of_all {p : Char → Bool} {front rest : List Char}
    (hf : front.all p = true) (hr : rest.head?.any p = false) :
    (front ++ rest).takeWhile p = front := by
  rw [List.takeWhile_append_of_pos (List.all_eq_true.1 hf)]
  cases rest with
  | nil => exact List.append_nil _
  | cons c rest =>
      rw [List.takeWhile_cons_of_neg (by simpa using hr), List.append_nil]

/-- A run is read up to where its class ends. -/
theorem run_eq_found_iff {first next : Char → Bool} {s rest : List Char} {text : String} :
    run first next s = .found text rest ↔
      s = text.toList ++ rest ∧ isRun first next text.toList = true
        ∧ rest.head?.any next = false := by
  constructor
  · intro h
    cases s with
    | nil => simp [run, Reading.miss] at h
    | cons c s =>
        simp only [run] at h
        split at h
        · -- the first character decides, the others are all that the class allows
          next hc =>
            cases h
            rw [String.toList_ofList, isRun, hc, List.all_takeWhile]
            refine ⟨?_, rfl, head?_dropWhile next s⟩
            rw [List.cons_append, List.takeWhile_append_dropWhile]
        · simp [Reading.miss] at h
  · intro h
    obtain ⟨rfl, hn, hr⟩ := h
    generalize ht : text.toList = t at hn
    cases t with
    | nil => simp [isRun] at hn
    | cons c t =>
        obtain ⟨hc, ht'⟩ := Bool.and_eq_true_iff.1 hn
        -- the class goes on through the text and ends where `rest` starts
        rw [List.cons_append, run, if_pos hc, takeWhile_append_of_all ht' hr,
          dropWhile_append_of_all ht' hr, ← ht, String.ofList_toList]

theorem all_of_isPath {t : List Char} (h : isPath t = true) :
    t.all isWordChar = true ∧ t ≠ [] := by
  cases t with
  | nil => exact absurd h Bool.false_ne_true
  | cons c t => exact ⟨h, List.cons_ne_nil c t⟩

theorem isPath_of_isName {t : List Char} (h : isName t = true) : isPath t = true := by
  cases t with
  | nil => exact h
  | cons c t =>
      obtain ⟨hc, ht⟩ := Bool.and_eq_true_iff.1 h
      have hword := List.all_eq_true.1 ht
      refine Bool.and_eq_true_iff.2 ⟨isWordChar_of_isNameChar (isNameChar_of_isNameStart hc), ?_⟩
      exact List.all_eq_true.2 fun d hd => isWordChar_of_isNameChar (hword d hd)

/-- Two paths with a dot between them are one path. -/
theorem isPath_append_dot {s t : List Char} (hs : isPath s = true)
    (ht : isPath t = true) : isPath (s ++ '.' :: t) = true := by
  obtain ⟨hs', hne⟩ := all_of_isPath hs
  obtain ⟨ht', -⟩ := all_of_isPath ht
  have hall : (s ++ '.' :: t).all isWordChar = true := by
    rw [List.all_append, List.all_cons, hs', ht']
    decide
  cases s with
  | nil => exact absurd rfl hne
  | cons c s => exact hall

/-! ## §2. Literals. -/

/-- Whether one of the readers of literals takes up the whole text: as a quoted
text, as a list, or as a bare word. -/
def IsLiteral (text : String) : Prop :=
  quoted text.toList = .found () [] ∨ bracketList text.toList = .found () []
    ∨ bareWord text.toList = .found text []

instance (text : String) : Decidable (IsLiteral text) :=
  inferInstanceAs (Decidable (_ ∨ _ ∨ _))

theorem wordBody_of_isPath {t : List Char} (h : isPath t = true) : WordBody t :=
  .of_all (all_of_isPath h).1

/-- A path is a bare word, unless it is a reserved one. -/
theorem isBareWord_of_isPath {t : List Char} (h : isPath t = true)
    (hres : String.ofList t ∉ reservedWords) : IsBareWord t := by
  obtain ⟨hall, hne⟩ := all_of_isPath h
  refine @IsBareWord.intro [] t (by decide) (wordBody_of_isPath h) hne (fun _ => ?_) hres
  intro hhead
  obtain ⟨s, rfl⟩ := List.head?_eq_some_iff.1 hhead
  exact absurd hall (by simp [isWordChar, isNameChar])

/-- The characters that a bare word may start with. -/
def opensWord (c : Char) : Bool :=
  isWordChar c || c == '!' || c == '-'

/-- A bare word starts with a sign or with a character of a word. -/
theorem IsBareWord.exists_cons {t : List Char} (h : IsBareWord t) :
    ∃ c s, t = c :: s ∧ opensWord c = true := by
  obtain ⟨hsign, hbody, hne, hparen, hres⟩ := h
  rename_i sign body
  simp only [signs, List.mem_cons, List.not_mem_nil, or_false] at hsign
  rcases hsign with rfl | rfl | rfl | rfl
  · cases hbody with
    | nil => exact absurd rfl hne
    | @char c s hc _ => exact ⟨c, s, rfl, by simp [opensWord, hc]⟩
    | @call args s ha _ =>
        obtain ⟨args', rfl⟩ := exists_cons_of_bracketed ha
        exact absurd rfl (hparen rfl)
  · exact ⟨'!', body, rfl, by decide⟩
  · exact ⟨'-', body, rfl, by decide⟩
  · exact ⟨'!', '-' :: body, rfl, by decide⟩

theorem IsBareWord.of_bareWord {text : String} (h : bareWord text.toList = .found text []) :
    IsBareWord text.toList :=
  (bareWord_eq_found_iff.1 h).2.1

theorem IsLiteral.of_isBareWord {text : String} (h : IsBareWord text.toList) : IsLiteral text :=
  .inr (.inr (bareWord_eq_found_iff.2 ⟨(List.append_nil _).symm, h, rfl⟩))

/-- The characters that a literal may start with. -/
def opensLiteral (c : Char) : Bool :=
  isQuote c || c == '[' || opensWord c

/-- How a literal starts tells it from every other operand. -/
theorem IsLiteral.exists_cons {text : String} (h : IsLiteral text) :
    ∃ c s, text.toList = c :: s ∧ opensLiteral c = true := by
  rcases h with h | h | h
  · obtain ⟨c, s, hs, hc⟩ := exists_cons_of_quoted h
    exact ⟨c, s, hs, by simp [opensLiteral, hc]⟩
  · obtain ⟨s, hs⟩ := exists_cons_of_bracketed h
    exact ⟨'[', s, hs, by decide⟩
  · obtain ⟨c, s, hs, hc⟩ := (IsBareWord.of_bareWord h).exists_cons
    exact ⟨c, s, hs, by simp [opensLiteral, hc]⟩

/-- A literal has something to say. -/
theorem IsLiteral.isBlank_eq_false {text : String} (h : IsLiteral text) :
    isBlank text = false := by
  obtain ⟨c, s, hs, hc⟩ := h.exists_cons
  have hblank : isBlankChar c = false := by
    simp only [opensLiteral, opensWord, isQuote, Bool.or_eq_true, beq_iff_eq] at hc
    rcases hc with ((rfl | rfl) | rfl) | ((hw | rfl) | rfl)
    · decide
    · decide
    · decide
    · exact isBlankChar_of_isWordChar hw
    · decide
    · decide
  rw [isBlank, hs, List.all_cons, hblank]
  rfl

theorem opensWord_of_bareWord {text : String} {c : Char} {s : List Char}
    (h : bareWord text.toList = .found text []) (hs : text.toList = c :: s) :
    opensWord c = true := by
  obtain ⟨d, s', hs', hd⟩ := (IsBareWord.of_bareWord h).exists_cons
  rw [hs] at hs'
  cases hs'
  exact hd

theorem not_isQuote_of_opensWord {c : Char} (hc : opensWord c = true) : isQuote c = false := by
  cases hq : isQuote c with
  | false => rfl
  | true =>
      exfalso
      simp only [isQuote, Bool.or_eq_true, beq_iff_eq] at hq
      rcases hq with rfl | rfl <;> exact absurd hc (by decide)

/-- What is read as a quoted text is the quoted text in front of the rest,
whatever the rest is. -/
theorem verbatim_quoted_eq_found_iff {s rest : List Char} {text : String} :
    verbatim quoted s = .found text rest ↔
      s = text.toList ++ rest ∧ quoted text.toList = .found () [] :=
  verbatim_eq_found_iff quoted_append quoted_cut

/-- The same holds of a list. -/
theorem verbatim_bracketList_eq_found_iff {s rest : List Char} {text : String} :
    verbatim bracketList s = .found text rest ↔
      s = text.toList ++ rest ∧ bracketList text.toList = .found () [] :=
  verbatim_eq_found_iff (bracketed_append (by decide)) bracketed_cut

/-- The reader of quoted texts leaves everything else to the next reader, and
the reader of lists does so as well. -/
theorem verbatim_quoted_of_not_isQuote {c : Char} {s : List Char} (hc : isQuote c = false) :
    verbatim quoted (c :: s) = .miss (c :: s) := by
  rw [verbatim, quoted, if_neg (by simp [hc])]
  rfl

theorem verbatim_bracketList_of_ne {c : Char} {s : List Char} (hc : c ≠ '[') :
    verbatim bracketList (c :: s) = .miss (c :: s) := by
  rw [verbatim, bracketList, bracketed, if_neg hc]
  rfl

end SecurityRules.Shorthand

namespace SecurityRules

open SecurityRules.Text
open SecurityRules.Shorthand

/-! ## §3. Well spelled operands. -/

/-- Whether a reference can be told from its name. -/
def Reference.WellSpelled : Reference → Prop
  | .this => True
  | .named n => isName n.toList = true ∧ n ≠ Reference.thisName

/-- Whether an operand can be told from its shorthand. -/
def Operand.WellSpelled : Operand → Prop
  | .literal text => IsLiteral text
  | .field reference => reference.WellSpelled
  | .lookup via path => via.WellSpelled ∧ isPath path.toList = true

instance (r : Reference) : Decidable r.WellSpelled :=
  match r with
  | .this => isTrue trivial
  | .named _ => inferInstanceAs (Decidable (_ ∧ _))

instance (o : Operand) : Decidable o.WellSpelled :=
  match o with
  | .literal text => inferInstanceAs (Decidable (IsLiteral text))
  | .field r => inferInstanceAs (Decidable r.WellSpelled)
  | .lookup _ _ => inferInstanceAs (Decidable (_ ∧ _))

/-- Whether the shorthand of an operand ends in front of `rest`. -/
def Operand.EndsBefore (rest : List Char) : Operand → Prop
  | .literal text => bareWord text.toList = .found text [] → endsWord rest = true
  | .field _ => rest.head?.any isNameChar = false
  | .lookup _ _ => rest.head?.any isWordChar = false

/-- What is read off a name is well spelled. -/
theorem Reference.wellSpelled_ofName {n : String} (hn : isName n.toList = true) :
    (Reference.ofName n).WellSpelled := by
  unfold Reference.ofName
  split
  · trivial
  · next hne => exact ⟨hn, hne⟩

theorem Reference.isName_name {r : Reference} (h : r.WellSpelled) :
    isName r.name.toList = true := by
  cases r with
  | this => decide
  | named n => exact h.1

/-- A reference that is well spelled is the one that its name is read as. -/
theorem Reference.ofName_name_of_wellSpelled {r : Reference} (h : r.WellSpelled) :
    Reference.ofName r.name = r := by
  refine Reference.ofName_name ?_
  intro heq
  subst heq
  exact h.2 rfl

theorem Operand.toList_shorthand_field (r : Reference) :
    (Operand.field r).shorthand.toList = '$' :: r.name.toList := by
  rw [Operand.shorthand, String.toList_append]
  rfl

theorem Operand.toList_shorthand_lookup (via : Reference) (path : String) :
    (Operand.lookup via path).shorthand.toList
      = '@' :: (via.name.toList ++ '.' :: path.toList) := by
  simp only [Operand.shorthand, String.toList_append]
  show '@' :: (via.name.toList ++ ['.']) ++ path.toList = _
  rw [List.cons_append, List.append_assoc]
  rfl

end SecurityRules

namespace SecurityRules.Shorthand

open SecurityRules.Text

/-! ## §4. Reading operands. -/

/-- **A field is read** exactly where its shorthand stands and its name does not
run on. -/
theorem fieldOperand_eq_found_iff {s rest : List Char} {o : Operand} :
    fieldOperand s = .found o rest ↔
      ∃ r : Reference, o = .field r ∧ r.WellSpelled ∧ s = o.shorthand.toList ++ rest
        ∧ o.EndsBefore rest := by
  constructor
  · intro h
    unfold fieldOperand at h
    split at h
    · next s' =>
        obtain ⟨n, hn, rfl⟩ := Reading.map_eq_found.1 h
        -- the reader of names is a run, so it takes a name and stops where the name ends
        have hrun := Reading.commit_eq_found.1 hn
        rw [name_eq_run, run_eq_found_iff] at hrun
        obtain ⟨rfl, hname, hends⟩ := hrun
        refine ⟨.ofName n, rfl, Reference.wellSpelled_ofName hname, ?_, hends⟩
        rw [Operand.toList_shorthand_field, Reference.name_ofName]
        rfl
    · simp [Reading.miss] at h
  · intro h
    obtain ⟨r, rfl, hr, rfl, hends⟩ := h
    have hname : name (r.name.toList ++ rest) = .found r.name rest := by
      rw [name_eq_run, run_eq_found_iff]
      exact ⟨rfl, r.isName_name hr, hends⟩
    rw [Operand.toList_shorthand_field]
    -- the sigil is gone, and what is left is the reader of names
    show (name (r.name.toList ++ rest)).commit.map _ = _
    rw [hname]
    show Reading.found (Operand.field (.ofName r.name)) rest = _
    rw [r.ofName_name_of_wellSpelled hr]

/-- **A lookup is read** exactly where its shorthand stands and its path does
not run on. The name in front of the dot ends at the dot. -/
theorem lookupOperand_eq_found_iff {s rest : List Char} {o : Operand} :
    lookupOperand s = .found o rest ↔
      ∃ (via : Reference) (p : String), o = .lookup via p ∧ o.WellSpelled
        ∧ s = o.shorthand.toList ++ rest ∧ o.EndsBefore rest := by
  constructor
  · intro h
    unfold lookupOperand at h
    split at h
    · next s' =>
        obtain ⟨n, mid, hn, hmid⟩ := Reading.andThen_eq_found.1 h
        have hrun := Reading.commit_eq_found.1 hn
        rw [name_eq_run, run_eq_found_iff] at hrun
        obtain ⟨rfl, hname, -⟩ := hrun
        -- behind the name stands a dot and the path, or reading fails
        unfold lookupPath at hmid
        split at hmid
        · next mid' =>
            obtain ⟨p, hp, rfl⟩ := Reading.map_eq_found.1 hmid
            have hrun := Reading.commit_eq_found.1 (Reading.noting_eq_found.1 hp)
            rw [path_eq_run, run_eq_found_iff] at hrun
            obtain ⟨rfl, hpath, hends⟩ := hrun
            refine ⟨.ofName n, p, rfl, ⟨Reference.wellSpelled_ofName hname, hpath⟩, ?_, hends⟩
            rw [Operand.toList_shorthand_lookup, Reference.name_ofName]
            simp only [List.cons_append, List.append_assoc]
        · simp [Reading.refuse] at hmid
    · simp [Reading.miss] at h
  · intro h
    obtain ⟨via, p, rfl, ⟨hvia, hpath⟩, rfl, hends⟩ := h
    -- no dot belongs to a name, so the first reader stops in front of it
    have hname : name (via.name.toList ++ '.' :: (p.toList ++ rest))
        = .found via.name ('.' :: (p.toList ++ rest)) := by
      rw [name_eq_run, run_eq_found_iff]
      exact ⟨rfl, via.isName_name hvia, rfl⟩
    have hp : path (p.toList ++ rest) = .found p rest := by
      rw [path_eq_run, run_eq_found_iff]
      exact ⟨rfl, hpath, hends⟩
    rw [Operand.toList_shorthand_lookup, List.cons_append, List.append_assoc, List.cons_append]
    show (name (via.name.toList ++ '.' :: (p.toList ++ rest))).commit.andThen lookupPath = _
    rw [hname]
    show ((path (p.toList ++ rest)).commit.noting .path).map _ = _
    rw [hp]
    show Reading.found (Operand.lookup (.ofName via.name) p) rest = _
    rw [via.ofName_name_of_wellSpelled hvia]

/-- Reads a literal. -/
def literalHere (s : List Char) : Reading Operand :=
  ((verbatim quoted s).map Operand.literal).orElse fun _ =>
  ((verbatim bracketList s).map Operand.literal).orElse fun _ =>
  (bareWord s).map Operand.literal

/-- **A literal is read** exactly where it stands as its own reader takes it up:
a quoted text or a list in front of anything, a bare word where the word ends.
-/
theorem literalHere_eq_found_iff {s rest : List Char} {o : Operand} :
    literalHere s = .found o rest ↔
      ∃ text : String, o = .literal text ∧ IsLiteral text ∧ s = o.shorthand.toList ++ rest
        ∧ o.EndsBefore rest := by
  constructor
  · intro h
    rcases Reading.orElse_eq_found.1 h with h | ⟨-, -, -, h⟩
    · obtain ⟨text, htext, rfl⟩ := Reading.map_eq_found.1 h
      obtain ⟨hs, hq⟩ := verbatim_quoted_eq_found_iff.1 htext
      -- a quoted text is no bare word, so whatever follows ends it
      refine ⟨text, rfl, .inl hq, hs, fun hbare => ?_⟩
      obtain ⟨c, t, ht, hc⟩ := exists_cons_of_quoted hq
      have hno := not_isQuote_of_opensWord (opensWord_of_bareWord hbare ht)
      rw [hc] at hno
      cases hno
    rcases Reading.orElse_eq_found.1 h with h | ⟨-, -, -, h⟩
    · obtain ⟨text, htext, rfl⟩ := Reading.map_eq_found.1 h
      obtain ⟨hs, hl⟩ := verbatim_bracketList_eq_found_iff.1 htext
      refine ⟨text, rfl, .inr (.inl hl), hs, fun hbare => ?_⟩
      obtain ⟨t, ht⟩ := exists_cons_of_bracketed hl
      exact absurd (opensWord_of_bareWord hbare ht) (by decide)
    · obtain ⟨text, htext, rfl⟩ := Reading.map_eq_found.1 h
      obtain ⟨hs, hbare, hends⟩ := bareWord_eq_found_iff.1 htext
      have hall : bareWord text.toList = .found text [] :=
        bareWord_eq_found_iff.2 ⟨(List.append_nil _).symm, hbare, rfl⟩
      exact ⟨text, rfl, .inr (.inr hall), hs, fun _ => hends⟩
  · intro h
    obtain ⟨text, rfl, htext, rfl, hends⟩ := h
    show literalHere (text.toList ++ rest) = _
    rcases htext with hq | hl | hbare
    · have hfound : verbatim quoted (text.toList ++ rest) = .found text rest :=
        verbatim_quoted_eq_found_iff.2 ⟨rfl, hq⟩
      rw [literalHere, hfound]
      rfl
    · have hfound : verbatim bracketList (text.toList ++ rest) = .found text rest :=
        verbatim_bracketList_eq_found_iff.2 ⟨rfl, hl⟩
      obtain ⟨t, ht⟩ := exists_cons_of_bracketed hl
      have hmiss : verbatim quoted (text.toList ++ rest) = .miss (text.toList ++ rest) := by
        rw [ht]
        exact verbatim_quoted_of_not_isQuote (by decide)
      rw [literalHere, hmiss, hfound]
      rfl
    · have hfound : bareWord (text.toList ++ rest) = .found text rest :=
        bareWord_eq_found_iff.2 ⟨rfl, .of_bareWord hbare, hends hbare⟩
      obtain ⟨c, t, ht, hc⟩ := (IsBareWord.of_bareWord hbare).exists_cons
      have hmiss : verbatim quoted (text.toList ++ rest) = .miss (text.toList ++ rest) := by
        rw [ht]
        exact verbatim_quoted_of_not_isQuote (not_isQuote_of_opensWord hc)
      have hmiss' : verbatim bracketList (text.toList ++ rest) = .miss (text.toList ++ rest) := by
        rw [ht]
        refine verbatim_bracketList_of_ne ?_
        intro heq
        subst heq
        exact absurd hc (by decide)
      rw [literalHere, hmiss, hmiss', hfound]
      rfl

/-- The three kinds of operand are tried one after the other. -/
theorem operandHere_eq_orElse (s : List Char) :
    operandHere s = (fieldOperand s).orElse fun _ => (lookupOperand s).orElse fun _ =>
      literalHere s := rfl

theorem fieldOperand_of_ne {c : Char} {s : List Char} (hc : c ≠ '$') :
    fieldOperand (c :: s) = .miss (c :: s) := by
  unfold fieldOperand
  split
  · next heq => exact absurd (List.cons.inj heq).1 hc
  · rfl

theorem lookupOperand_of_ne {c : Char} {s : List Char} (hc : c ≠ '@') :
    lookupOperand (c :: s) = .miss (c :: s) := by
  unfold lookupOperand
  split
  · next heq => exact absurd (List.cons.inj heq).1 hc
  · rfl

/-- **An operand is read exactly where it stands and ends.** -/
theorem operandHere_eq_found_iff {s rest : List Char} {o : Operand} :
    operandHere s = .found o rest ↔
      s = o.shorthand.toList ++ rest ∧ o.WellSpelled ∧ o.EndsBefore rest := by
  constructor
  · intro h
    rcases Reading.orElse_eq_found.1 h with h | ⟨-, -, -, h⟩
    · obtain ⟨r, rfl, hr, hs, hends⟩ := fieldOperand_eq_found_iff.1 h
      exact ⟨hs, hr, hends⟩
    rcases Reading.orElse_eq_found.1 h with h | ⟨-, -, -, h⟩
    · obtain ⟨via, p, rfl, ho, hs, hends⟩ := lookupOperand_eq_found_iff.1 h
      exact ⟨hs, ho, hends⟩
    · obtain ⟨text, rfl, htext, hs, hends⟩ := literalHere_eq_found_iff.1 h
      exact ⟨hs, htext, hends⟩
  · intro h
    obtain ⟨hs, ho, hends⟩ := h
    rw [operandHere_eq_orElse]
    -- the first character tells which reader misses and which one finds
    cases o with
    | field r =>
        rw [fieldOperand_eq_found_iff.2 ⟨r, rfl, ho, hs, hends⟩]
        rfl
    | lookup via p =>
        have hmiss : fieldOperand s = .miss s := by
          rw [hs, Operand.toList_shorthand_lookup]
          exact fieldOperand_of_ne (by decide)
        rw [hmiss, lookupOperand_eq_found_iff.2 ⟨via, p, rfl, ho, hs, hends⟩]
        rfl
    | literal text =>
        obtain ⟨c, t, ht, hc⟩ := IsLiteral.exists_cons ho
        have hcons : s = c :: (t ++ rest) := by
          rw [hs]
          show text.toList ++ rest = _
          rw [ht, List.cons_append]
        have hmiss : fieldOperand s = .miss s := by
          rw [hcons]
          refine fieldOperand_of_ne ?_
          intro heq
          subst heq
          exact absurd hc (by decide)
        have hmiss' : lookupOperand s = .miss s := by
          rw [hcons]
          refine lookupOperand_of_ne ?_
          intro heq
          subst heq
          exact absurd hc (by decide)
        rw [hmiss, hmiss', literalHere_eq_found_iff.2 ⟨text, rfl, ho, hs, hends⟩]
        rfl

/-- Layout in front of an operand is passed over. -/
theorem operand_eq_found_iff {s rest : List Char} {o : Operand} :
    operand s = .found o rest ↔
      afterLayout s = o.shorthand.toList ++ rest ∧ o.WellSpelled ∧ o.EndsBefore rest := by
  rw [operand, Reading.noting_eq_found, operandHere_eq_found_iff]

/-- The characters that an operand may start with. -/
def opensOperand (c : Char) : Bool :=
  c == '$' || c == '@' || opensLiteral c

/-- How the shorthand of an operand starts tells that an operand starts there.
-/
theorem exists_cons_of_wellSpelled {o : Operand} (h : o.WellSpelled) :
    ∃ c s, o.shorthand.toList = c :: s ∧ opensOperand c = true := by
  cases o with
  | field r => exact ⟨'$', _, Operand.toList_shorthand_field r, by decide⟩
  | lookup via p => exact ⟨'@', _, Operand.toList_shorthand_lookup via p, by decide⟩
  | literal text =>
      obtain ⟨c, s, hs, hc⟩ := IsLiteral.exists_cons h
      exact ⟨c, s, hs, by simp [opensOperand, hc]⟩

end SecurityRules.Shorthand
