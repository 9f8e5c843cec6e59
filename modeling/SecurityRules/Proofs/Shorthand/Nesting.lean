/-
  SecurityRules.Proofs.Shorthand.Nesting
  ────────────────────────────────
  **HOW THE BRACKETS OF A RULE ARE NESTED.**

  The shorthand scans a bracketed text for brackets of its own kind and keeps it
  as it stands, so a list may contain a lone round parenthesis, and the arguments
  of a call a lone square bracket.  Such a text is not nested, and neither is a
  rule that contains it.  That is the only way in which a rule can fail to be
  nested: parentheses that are added come in pairs, and every literal is passed
  over as a whole, since the brackets of its own kind are balanced.

    * `nested` — a scan for brackets of both kinds outside quotes;
    * `NestsAs` — a text that is passed over as a whole, or fails by itself;
    * `nestsAs_of_isLiteral` — every literal is such a text;
    * `Formula.nestsAs_of_render` — so is the text of a rule, which fails if a leaf
      does.

  Main statement: `Predicate.nested_iff_of_renderIn`.
-/
import SecurityRules.Proofs.Shorthand.JsonText
import SecurityRules.Proofs.Shorthand.Regrouping
import SecurityRules.Proofs.Shorthand.Resolved

namespace SecurityRules.Shorthand

open SecurityRules.Text

/-! ## §1. Scanning for brackets of both kinds. -/

/-- The bracket that closes an opening one. -/
def closerOf? (c : Char) : Option Char :=
  if c = '(' then some ')' else if c = '[' then some ']' else none

/-- The brackets that close. -/
def isCloser (c : Char) : Bool :=
  c == ')' || c == ']'

/-- Whether every bracket outside quotes is closed by one of its own kind, the last
one first, and every quoted text is closed, where `awaited` are the closing
brackets that are still to come, the next one first, and `quote` is the quote that
is open. -/
def nested : (awaited : List Char) → (quote : Option Char) → List Char → Bool
  | awaited, quote, [] => awaited.isEmpty && quote.isNone
  | awaited, some quote, '\\' :: _ :: rest => nested awaited (some quote) rest
  | awaited, some quote, c :: rest =>
      nested awaited (if c = quote then none else some quote) rest
  | awaited, none, c :: rest =>
      if isQuote c then nested awaited (some c) rest
      else
        match closerOf? c with
        | some closer => nested (closer :: awaited) none rest
        | none =>
            if isCloser c then awaited.head? == some c && nested awaited.tail none rest
            else nested awaited none rest

/-- Whether the brackets of a text are nested by themselves. -/
def isNested (text : List Char) : Bool :=
  nested [] none text

section Steps

variable (awaited s : List Char) {c : Char}

theorem nested_escape (quote c : Char) :
    nested awaited (some quote) ('\\' :: c :: s) = nested awaited (some quote) s := by
  rw [nested]

/-- Between quotes only the closing quote means something. -/
theorem nested_inQuote (quote : Char) (hc : c ≠ '\\') :
    nested awaited (some quote) (c :: s)
      = nested awaited (if c = quote then none else some quote) s := by
  rw [nested]
  intro d rest he
  exact absurd he hc

theorem nested_quote (hc : isQuote c = true) :
    nested awaited none (c :: s) = nested awaited (some c) s := by
  rw [nested, if_pos hc]

/-- A bracket is no quote, and does not both open and close. -/
theorem closerOf?_eq_some {closer : Char} (h : closerOf? c = some closer) :
    isQuote c = false ∧ isCloser closer = true := by
  unfold closerOf? at h
  split at h
  · next hc =>
      cases h
      exact ⟨by rw [hc]; rfl, rfl⟩
  · split at h
    · next hc =>
        cases h
        exact ⟨by rw [hc]; rfl, rfl⟩
    · cases h

/-- A closing bracket is neither a quote nor an opening one. -/
theorem of_isCloser (h : isCloser c = true) : isQuote c = false ∧ closerOf? c = none := by
  rcases Bool.or_eq_true_iff.1 h with hc | hc
  · rw [beq_iff_eq.1 hc]
    exact ⟨rfl, rfl⟩
  · rw [beq_iff_eq.1 hc]
    exact ⟨rfl, rfl⟩

/-- A closing bracket closes one kind. -/
theorem eq_of_closerOf? {d closer : Char} (hc : closerOf? c = some closer)
    (hd : closerOf? d = some closer) : c = d := by
  unfold closerOf? at hc hd
  grind

/-- An opening bracket waits for its closing one before all others. -/
theorem nested_opener {closer : Char} (h : closerOf? c = some closer) :
    nested awaited none (c :: s) = nested (closer :: awaited) none s := by
  rw [nested, (closerOf?_eq_some h).1, h]
  rfl

/-- A closing bracket has to be the one that is waited for. -/
theorem nested_closer (next : Char) (h : isCloser c = true) :
    nested (next :: awaited) none (c :: s) = (next == c && nested awaited none s) := by
  rw [nested, (of_isCloser h).1, (of_isCloser h).2, h]
  exact congrArg (· && nested awaited none s) Option.some_beq_some

theorem nested_match (h : isCloser c = true) :
    nested (c :: awaited) none (c :: s) = nested awaited none s := by
  rw [nested_closer awaited s c h, beq_self_eq_true, Bool.true_and]

theorem nested_mismatch {next : Char} (hne : next ≠ c) (h : isCloser c = true) :
    nested (next :: awaited) none (c :: s) = false := by
  rw [nested_closer awaited s next h, beq_false_of_ne hne, Bool.false_and]

theorem nested_other (hq : ¬isQuote c = true) (hopen : closerOf? c = none)
    (hclose : isCloser c = false) : nested awaited none (c :: s) = nested awaited none s := by
  rw [nested, if_neg hq, hopen, hclose]
  rfl

end Steps

/-! ## §2. Texts that are passed over as a whole. -/

/-- Whether a text is passed over as a whole, whatever is awaited, if `fine`, and
fails by itself if not. -/
def NestsAs (t : List Char) (fine : Bool) : Prop :=
  ∀ awaited rest : List Char,
    nested awaited none (t ++ rest) = (fine && nested awaited none rest)

section NestsAs

variable {s t : List Char} {a b : Bool}

/-- What is passed over in every context is passed over where nothing is
awaited. -/
theorem NestsAs.isNested_eq (h : NestsAs t b) : isNested t = b := by
  have hnil := h [] []
  rw [List.append_nil] at hnil
  exact hnil.trans (Bool.and_true b)

theorem NestsAs.own (h : NestsAs t b) : NestsAs t (isNested t) :=
  h.isNested_eq ▸ h

/-- Of two texts that are passed over the second is only looked at if the first
is nested. -/
theorem NestsAs.append (hs : NestsAs s a) (ht : NestsAs t b) : NestsAs (s ++ t) (a && b) := by
  intro awaited rest
  rw [List.append_assoc, hs, ht, Bool.and_assoc]

/-- Whether a character is neither a quote nor a bracket. -/
def isFlat (c : Char) : Bool :=
  !isQuote c && !isBracket c

/-- A text without quotes and brackets changes nothing. -/
theorem nestsAs_of_flat {t : List Char} (h : t.all isFlat = true) : NestsAs t true := by
  intro awaited rest
  induction t with
  | nil => rfl
  | cons c t ih =>
      obtain ⟨hc, ht⟩ := Bool.and_eq_true_iff.1 h
      simp only [isFlat, isBracket, Bool.and_eq_true, Bool.not_eq_true', Bool.or_eq_false_iff,
        beq_eq_false_iff_ne] at hc
      obtain ⟨hq, ⟨⟨hround, hroundEnd⟩, hsquare⟩, hsquareEnd⟩ := hc
      have hopen : closerOf? c = none := (if_neg hround).trans (if_neg hsquare)
      have hclose : isCloser c = false :=
        Bool.or_eq_false_iff.2 ⟨beq_false_of_ne hroundEnd, beq_false_of_ne hsquareEnd⟩
      rw [List.cons_append, nested_other _ _ (by simp [hq]) hopen hclose]
      exact ih ht

theorem isFlat_of_isWordChar {c : Char} (h : isWordChar c = true) : isFlat c = true := by
  cases hf : isFlat c with
  | true => rfl
  | false =>
      exfalso
      simp only [isFlat, isQuote, isBracket, Bool.and_eq_false_iff, Bool.not_eq_false',
        Bool.or_eq_true, beq_iff_eq] at hf
      rcases hf with (rfl | rfl) | ((rfl | rfl) | rfl) | rfl <;> exact absurd h (by decide)

/-- Parentheses around a text close each other. -/
theorem NestsAs.group (h : NestsAs t b) : NestsAs ('(' :: (t ++ [')'])) b := by
  intro awaited rest
  have htext : '(' :: (t ++ [')']) ++ rest = '(' :: (t ++ ')' :: rest) := by
    rw [List.cons_append, List.append_assoc]
    rfl
  have hround : closerOf? '(' = some ')' := rfl
  rw [htext, nested_opener _ _ hround, h, nested_match _ _ rfl]

end NestsAs

/-! ## §3. Literals. -/

/-- Behind an opening quote the scan is the one that looks for the closing
quote, so it goes on where that one ends. -/
theorem nested_afterQuote {quote : Char} (hq : quote ≠ '\\') {s rest : List Char}
    (h : afterQuote quote s = some rest) (awaited : List Char) :
    nested awaited (some quote) s = nested awaited none rest := by
  fun_induction afterQuote quote s with
  | case1 => simp at h
  | case2 c s ih =>
      rw [nested_escape]
      exact ih h
  | case3 s =>
      cases h
      rw [nested_inQuote _ _ quote hq, if_pos rfl]
  | case4 c s hs hne ih =>
      have hc : c ≠ '\\' := ne_backslash_of_row (ne_nil_of_afterQuote h) hs
      rw [nested_inQuote _ _ quote hc, if_neg hne]
      exact ih h

/-- A quoted text is passed over, whatever brackets are in it. -/
theorem nestsAs_of_quoted {t : List Char} (h : quoted t = .found () []) : NestsAs t true := by
  intro awaited rest
  obtain ⟨c, s, rfl, hc⟩ := exists_cons_of_quoted h
  have hne := ne_backslash_of_isQuote hc
  rw [quoted, if_pos hc] at h
  split at h
  · next behind hs =>
      cases h
      rw [List.cons_append, nested_quote _ _ hc,
        nested_afterQuote hne (afterQuote_append hne rest hs), List.nil_append, Bool.true_and]
  · simp [Reading.refuse] at h

section Bracketed

variable {opening closing : Char}

/-- A bracket that is found to close is reached with nothing else awaited, or not
at all. Of the brackets that are awaited inside, `inner`, the scan that found it
counts those of its own kind. -/
theorem exists_nests_of_closeBracket (hkind : closerOf? opening = some closing) {depth : Nat}
    {quote : Option Char} {s rest : List Char} {u : Unit}
    (h : closeBracket opening closing depth quote s = .found u rest) {inner : List Char}
    (hinner : inner.count closing = depth) :
    ∃ fine, ∀ awaited more : List Char,
      nested (inner ++ closing :: awaited) quote (s ++ more)
        = (fine && nested awaited none (rest ++ more)) := by
  have hcloser := (closerOf?_eq_some hkind).2
  fun_induction closeBracket opening closing depth quote s generalizing inner with
  | case1 => simp [Reading.refuse] at h
  | case2 depth quote c s ih =>
      obtain ⟨fine, hfine⟩ := ih h hinner
      refine ⟨fine, fun awaited more => ?_⟩
      rw [List.cons_append, List.cons_append, nested_escape]
      exact hfine awaited more
  | case3 depth quote c s hs ih =>
      have hc : c ≠ '\\' := ne_backslash_of_row (ne_nil_of_closeBracket h) hs
      obtain ⟨fine, hfine⟩ := ih h hinner
      refine ⟨fine, fun awaited more => ?_⟩
      rw [List.cons_append, nested_inQuote _ _ quote hc]
      exact hfine awaited more
  | case4 depth c s hq ih =>
      obtain ⟨fine, hfine⟩ := ih h hinner
      refine ⟨fine, fun awaited more => ?_⟩
      rw [List.cons_append, nested_quote _ _ hq]
      exact hfine awaited more
  | case5 => simp [Reading.refuse] at h
  | case6 depth s hq hs ih =>
      -- one more of its own kind is awaited
      have hmore : (closing :: inner).count closing = depth + 1 := by
        rw [List.count_cons_self, hinner]
      obtain ⟨fine, hfine⟩ := ih h hmore
      refine ⟨fine, fun awaited more => ?_⟩
      rw [List.cons_append, nested_opener _ _ hkind]
      exact hfine awaited more
  | case7 s hq hs hne =>
      cases h
      cases inner with
      | nil => exact ⟨true, fun awaited more => nested_match _ _ hcloser⟩
      | cons next inner =>
          -- another kind is awaited, since none of its own is
          have hnext : next ≠ closing := by
            rintro rfl
            rw [List.count_cons_self] at hinner
            exact absurd hinner (Nat.succ_ne_zero _)
          exact ⟨false, fun awaited more => nested_mismatch _ _ hnext hcloser⟩
  | case8 s depth hq hs hne ih =>
      cases inner with
      | nil => cases hinner
      | cons next inner =>
          by_cases hnext : next = closing
          · subst hnext
            rw [List.count_cons_self] at hinner
            obtain ⟨fine, hfine⟩ := ih h (Nat.succ.inj hinner)
            refine ⟨fine, fun awaited more => ?_⟩
            rw [List.cons_append, List.cons_append, nested_match _ _ hcloser]
            exact hfine awaited more
          · exact ⟨false, fun awaited more => nested_mismatch _ _ hnext hcloser⟩
  | case9 depth c s hq hs hne hne' ih =>
      -- a bracket of the other kind, or none at all
      cases hopen : closerOf? c with
      | some closer =>
          have hother : closer ≠ closing := by
            rintro rfl
            exact hne (eq_of_closerOf? hopen hkind)
          have hsame : (closer :: inner).count closing = depth := by
            rw [List.count_cons_of_ne hother, hinner]
          obtain ⟨fine, hfine⟩ := ih h hsame
          refine ⟨fine, fun awaited more => ?_⟩
          rw [List.cons_append, nested_opener _ _ hopen]
          exact hfine awaited more
      | none =>
          cases hclose : isCloser c with
          | false =>
              obtain ⟨fine, hfine⟩ := ih h hinner
              refine ⟨fine, fun awaited more => ?_⟩
              rw [List.cons_append, nested_other _ _ hq hopen hclose]
              exact hfine awaited more
          | true =>
              cases inner with
              | nil => exact ⟨false, fun awaited more => nested_mismatch _ _ (Ne.symm hne') hclose⟩
              | cons next inner =>
                  by_cases hnext : next = c
                  · subst hnext
                    rw [List.count_cons_of_ne hne'] at hinner
                    obtain ⟨fine, hfine⟩ := ih h hinner
                    refine ⟨fine, fun awaited more => ?_⟩
                    rw [List.cons_append, List.cons_append, nested_match _ _ hclose]
                    exact hfine awaited more
                  · exact ⟨false, fun awaited more => nested_mismatch _ _ hnext hclose⟩

/-- A text that one kind of bracket closes is passed over, or fails in every
context, as it is nested by itself or not. -/
theorem nestsAs_of_bracketed (hkind : closerOf? opening = some closing) {t : List Char}
    (h : bracketed opening closing t = .found () []) : NestsAs t (isNested t) := by
  obtain ⟨s, rfl⟩ := exists_cons_of_bracketed h
  rw [bracketed, if_pos rfl] at h
  have hnone : ([] : List Char).count closing = 0 := rfl
  obtain ⟨fine, hfine⟩ := exists_nests_of_closeBracket hkind h hnone
  have hnests : NestsAs (opening :: s) fine := by
    intro awaited rest
    rw [List.cons_append, nested_opener _ _ hkind]
    exact hfine awaited rest
  exact hnests.own

end Bracketed

/-- A word with its calls is as nested as its arguments are. -/
theorem nestsAs_of_wordBody {t : List Char} (h : WordBody t) : NestsAs t (isNested t) := by
  induction h with
  | nil => exact (nestsAs_of_flat rfl).own
  | @char c s hc _ ih =>
      have hone : NestsAs [c] true :=
        nestsAs_of_flat (by rw [List.all_cons, isFlat_of_isWordChar hc]; rfl)
      exact (hone.append ih).own
  | call ha _ ih => exact ((nestsAs_of_bracketed rfl ha).append ih).own

theorem nestsAs_of_isBareWord {t : List Char} (h : IsBareWord t) : NestsAs t (isNested t) := by
  obtain ⟨hsign, hbody, -, -, -⟩ := h
  refine (NestsAs.append (nestsAs_of_flat ?_) (nestsAs_of_wordBody hbody)).own
  simp only [signs, List.mem_cons, List.not_mem_nil, or_false] at hsign
  rcases hsign with rfl | rfl | rfl | rfl <;> decide

/-- **A literal is passed over as a whole, or fails by itself.** -/
theorem nestsAs_of_isLiteral {text : String} (h : IsLiteral text) :
    NestsAs text.toList (isNested text.toList) := by
  rcases h with hq | hl | hw
  · exact (nestsAs_of_quoted hq).own
  · exact nestsAs_of_bracketed rfl hl
  · exact nestsAs_of_isBareWord (.of_bareWord hw)

end SecurityRules.Shorthand

namespace SecurityRules

open Shorthand SecurityRules.Text

/-! ## §4. Clauses in a scope without brackets. -/

/-- Whether the document and the owner of a scope have neither quotes nor
brackets. -/
structure Scope.IsFlat (scope : Scope) : Prop where
  document : scope.document.toList.all isFlat = true
  owner : ∀ text ∈ scope.owner, text.toList.all isFlat = true

/-- The literals of an operand. -/
def Operand.literals : Operand → List String
  | .literal text => [text]
  | .field _ => []
  | .lookup _ _ => []

/-- The literals of a clause, in order. -/
def Clause.literals : Clause → List String
  | .literal text => [text]
  | .condition c => c.left.literals ++ c.right.literals

/-- The literals of a predicate, in order. -/
def Predicate.literals (p : Predicate) : List String :=
  p.clauses.flatMap Clause.literals

/-- Whether the brackets of each text are nested by themselves. -/
def allNested (texts : List String) : Bool :=
  texts.all fun text => isNested text.toList

variable {scope : Scope}

theorem Reference.nestsAs_of_resolve (hscope : scope.IsFlat) {r : Reference}
    (hr : r.WellSpelled) {place : String} (h : r.resolve scope = .ok place) :
    NestsAs place.toList true :=
  nestsAs_of_flat (Reference.all_of_resolve (fun _ => isFlat_of_isWordChar) hscope.document
    hscope.owner hr h)

/-- An operand is as nested as the literals in it: all else that it is written
with are a path and the brackets of a lookup. -/
theorem Operand.nestsAs_of_resolve (hscope : scope.IsFlat) {o : Operand} (ho : o.WellSpelled)
    {text : String} (h : o.resolve scope = .ok text) :
    NestsAs text.toList (allNested o.literals) := by
  rcases Operand.resolve_eq_ok.1 h with
    ⟨rfl, -⟩ | ⟨r, rfl, hr⟩ | ⟨via, path, place, rfl, -, hplace, rfl⟩
  · have hliteral := nestsAs_of_isLiteral ho
    rwa [← Bool.and_true (isNested _)] at hliteral
  · exact Reference.nestsAs_of_resolve hscope ho hr
  · have hget : NestsAs "get".toList true := nestsAs_of_flat (by decide +kernel)
    have hdata : NestsAs ".data.".toList true := nestsAs_of_flat (by decide +kernel)
    -- a path has no brackets, since its characters are those of words
    have hpath : NestsAs path.toList true := by
      have hall := (all_of_isPath ho.2).1
      exact nestsAs_of_flat (List.all_eq_true.2 fun c hc =>
        isFlat_of_isWordChar (List.all_eq_true.1 hall c hc))
    have hvia := (Reference.nestsAs_of_resolve hscope ho.1 hplace).group
    -- the two brackets of the call are taken together, around the place
    have htext : ("get(" ++ place ++ ").data." ++ path).toList
        = "get".toList ++ ('(' :: (place.toList ++ [')'])) ++ ".data.".toList ++ path.toList := by
      simp only [String.toList_append, List.append_assoc, List.cons_append]
      rfl
    rw [htext]
    exact ((hget.append hvia).append hdata).append hpath

/-- Operators bring no brackets with them but such as close each other. -/
theorem Operator.nestsAs_apply (op : Operator) {left right : String} {a b : Bool}
    (hl : NestsAs left.toList a) (hr : NestsAs right.toList b) :
    NestsAs (op.apply left right).toList (a && b) := by
  have hword : NestsAs op.spelling.toList true :=
    nestsAs_of_flat (by cases op <;> decide +kernel)
  have hspace : NestsAs " ".toList true := nestsAs_of_flat (by decide +kernel)
  have hin : NestsAs " in ".toList true := nestsAs_of_flat (by decide +kernel)
  cases op with
  | notMemberOf =>
      have hnot : NestsAs "!".toList true := nestsAs_of_flat (by decide +kernel)
      -- the operands stand in one group behind the negation
      have hgroup := hnot.append ((hl.append hin).append hr).group
      have htext : (Operator.notMemberOf.apply left right).toList
          = "!".toList ++ ('(' :: (left.toList ++ " in ".toList ++ right.toList ++ [')'])) := by
        simp only [Operator.apply, String.toList_append, List.append_assoc]
        rfl
      rw [htext]
      rwa [Bool.true_and, Bool.and_true] at hgroup
  | contains =>
      -- the operands change places, and both have to be nested in either order
      have hboth := (hr.append hin).append hl
      rw [Bool.and_true, Bool.and_comm] at hboth
      simp only [Operator.apply, String.toList_append]
      exact hboth
  | containsAny =>
      have hany : NestsAs ".hasAny".toList true := nestsAs_of_flat (by decide +kernel)
      -- the right operand is the argument of a call on the left one
      have hcall := (hl.append hany).append hr.group
      have htext : (Operator.containsAny.apply left right).toList
          = left.toList ++ ".hasAny".toList ++ ('(' :: (right.toList ++ [')'])) := by
        simp only [Operator.apply, String.toList_append, List.append_assoc]
        rfl
      rw [htext]
      rwa [Bool.and_true] at hcall
  | equal | notEqual | less | lessOrEqual | greater | greaterOrEqual | memberOf | ofType =>
      have hboth := (((hl.append hspace).append hword).append hspace).append hr
      rw [Bool.and_true, Bool.and_true, Bool.and_true] at hboth
      simp only [Operator.apply, String.toList_append]
      exact hboth

/-- **A clause is passed over as a whole, or fails with one of its literals.** -/
theorem Clause.nestsAs_of_resolve (hscope : scope.IsFlat) {c : Clause} (hc : c.WellSpelled)
    {text : String} (h : c.resolve scope = .ok (some text)) :
    NestsAs text.toList (allNested c.literals) := by
  rcases Clause.resolve_eq_ok_some.1 h with ⟨rfl, -⟩ | ⟨d, rfl, hd⟩
  · have hliteral := nestsAs_of_isLiteral hc
    rwa [← Bool.and_true (isNested _)] at hliteral
  · obtain ⟨left, right, hleft, hright, rfl⟩ := Condition.resolve_eq_ok.1 hd
    have hboth := d.operator.nestsAs_apply (Operand.nestsAs_of_resolve hscope hc.1 hleft)
      (Operand.nestsAs_of_resolve hscope hc.2 hright)
    rwa [allNested, allNested, ← List.all_append] at hboth

/-! ## §5. Rules. -/

/-- Joined texts are nested where each of them is. -/
theorem Shorthand.nestsAs_intercalate {sep : List Char} (hsep : NestsAs sep true)
    {texts : List (List Char)} (h : ∀ text ∈ texts, NestsAs text (isNested text)) :
    NestsAs (sep.intercalate texts) (texts.all isNested) := by
  induction texts with
  | nil => exact nestsAs_of_flat rfl
  | cons text texts ih =>
      obtain ⟨htext, htexts⟩ := List.forall_mem_cons.1 h
      cases texts with
      | nil =>
          rw [List.intercalate_singleton, List.all_cons, List.all_nil, Bool.and_true]
          exact htext
      | cons next texts =>
          have hboth := (htext.append hsep).append (ih htexts)
          rw [List.intercalate_cons_cons, List.all_cons]
          rwa [Bool.and_true] at hboth

/-- Connectives and parentheses bring nothing with them that fails. -/
theorem Connective.nestsAs_enclose {c : Connective} {texts : List String} {text : String}
    (h : ∀ t ∈ texts, NestsAs t.toList (isNested t.toList)) (htext : c.enclose texts = .ok text) :
    NestsAs text.toList (allNested texts) := by
  rcases Connective.enclose_eq_ok htext with rfl | ⟨-, hjoined⟩
  · rw [allNested, List.all_cons, List.all_nil, Bool.and_true]
    exact h text List.mem_cons_self
  · have hsep : NestsAs (" " ++ c.symbol ++ " ").toList true :=
      nestsAs_of_flat (by cases c <;> decide +kernel)
    have hall : ∀ t ∈ texts.map String.toList, NestsAs t (isNested t) := by
      intro t ht
      obtain ⟨own, hown, rfl⟩ := List.mem_map.1 ht
      exact h own hown
    have hgroup := (nestsAs_intercalate hsep hall).group
    rw [← hjoined, List.all_map] at hgroup
    exact hgroup

namespace Formula

theorem allNested_flatMap {α : Type} (f : α → List String) (as : List α) :
    allNested (as.flatMap f) = as.all fun a => allNested (f a) :=
  List.all_flatMap

/-- **The text of a rule is passed over as a whole, or fails with one of its
leaves.** -/
theorem nestsAs_of_render {n : Nat} {r : Formula String}
    (hr : r.Filled (fun leaf => Text.isBlank leaf = false
      ∧ NestsAs leaf.toList (isNested leaf.toList)) n) :
    ∀ text, render r = .ok (some text) → NestsAs text.toList (allNested r.leaves) := by
  induction hr with
  | @leaf leaf hleaf =>
      intro text htext
      rw [render, hleaf.1] at htext
      cases htext
      show NestsAs _ (isNested leaf.toList && true)
      rw [Bool.and_true]
      exact hleaf.2
  | @node c parts _ hparts ih =>
      intro text htext
      obtain ⟨texts, hall, hjoined⟩ := render_node_eq_ok.1 htext
      have hkeep : ∀ part ∈ parts, render part ≠ .ok none := fun part hpart =>
        render_ne_none ((hparts part hpart).mono (fun _ hb => hb.1) (Nat.zero_le _))
      have hown : ∀ t ∈ texts, NestsAs t.toList (isNested t.toList) := by
        intro t ht
        obtain ⟨part, hpart, hrender⟩ := exists_of_mem_renderAll hall ht
        exact (ih part hpart t hrender).own
      -- each text fails exactly if a leaf of its part does
      have hmap := map_of_renderAll (F := fun part => allNested part.leaves)
        (G := fun t => isNested t.toList) hkeep
        (fun part hpart t ht => (ih part hpart t ht).isNested_eq) hall
      have hleaves : allNested texts = allNested (node c parts).leaves := by
        have hjoin := congrArg (List.all · id) hmap
        rw [List.all_map, List.all_map] at hjoin
        rw [leaves_node, ← List.flatMap_def, allNested_flatMap]
        exact hjoin
      exact hleaves ▸ Connective.nestsAs_enclose hown hjoined

/-- What a traversal that keeps every leaf makes of the leaves, in order. -/
theorem leaves_of_traverse {α β γ ε : Type} {f : α → Except ε (Option β)} {F : α → γ} {G : β → γ}
    {n : Nat} {t : Formula α}
    (ht : t.Filled (fun a => f a ≠ .ok none ∧ ∀ b, f a = .ok (some b) → G b = F a) n)
    {u : Formula β} (hu : traverse f t = .ok (some u)) : u.leaves.map G = t.leaves.map F := by
  induction ht generalizing u with
  | @leaf a ha =>
      obtain ⟨kept, hkept, hmap⟩ := traverse_leaf_eq_ok.1 hu
      obtain ⟨b, rfl, rfl⟩ := Option.map_eq_some_iff.1 hmap
      exact congrArg (fun c => [c]) (ha.2 b hkept)
  | @node c parts _ hparts ih =>
      obtain ⟨us, hus, hnode⟩ := traverse_node_eq_ok.1 hu
      cases hnode
      have hkeep : ∀ part ∈ parts, traverse f part ≠ .ok none := fun part hpart =>
        traverse_ne_none ((hparts part hpart).mono (fun _ ha => ha.1) (Nat.le_refl n))
      have hmap := map_of_traverseAll (F := fun part => part.leaves.map F)
        (G := fun part => part.leaves.map G) hkeep (fun part hpart u hu => ih part hpart hu) hus
      rw [leaves_node, leaves_node, List.map_flatten, List.map_flatten, List.map_map, List.map_map]
      exact congrArg List.flatten hmap

end Formula

/-- **Resolving a term keeps what is nested in it**: in a scope without brackets
every leaf of the rule is passed over as a whole, and the leaves are nested
exactly where the literals of the term are. -/
theorem Term.allNested_of_traverse (hscope : scope.IsFlat) {t : Term}
    (ht : t.Filled Clause.WellSpelled 2) {rule : Formula String}
    (h : Formula.traverse (Clause.resolve scope) t = .ok (some rule)) :
    rule.Filled (fun leaf => Text.isBlank leaf = false
        ∧ NestsAs leaf.toList (isNested leaf.toList)) 2
      ∧ allNested rule.leaves = allNested (t.leaves.flatMap Clause.literals) := by
  have hkeep : ∀ c : Clause, c.WellSpelled → c.resolve scope ≠ .ok none :=
    fun c hc => Clause.resolve_ne_none (Clause.isBlank_of_wellSpelled hc)
  constructor
  · refine Formula.Filled.traverse (ht.mono (fun c hc => ⟨hkeep c hc, ?_⟩) (Nat.le_refl 2)) h
    intro leaf hleaf
    exact ⟨Clause.isBlank_of_resolve hleaf, (Clause.nestsAs_of_resolve hscope hc hleaf).own⟩
  · have hmap := Formula.leaves_of_traverse (F := fun c => allNested c.literals)
      (G := fun leaf => isNested leaf.toList)
      (ht.mono (fun c hc => ⟨hkeep c hc, fun leaf hleaf =>
        (Clause.nestsAs_of_resolve hscope hc hleaf).isNested_eq⟩) (Nat.le_refl 2)) h
    have hjoin := congrArg (List.all · id) hmap
    rw [List.all_map, List.all_map] at hjoin
    rw [Formula.allNested_flatMap]
    exact hjoin

/-- **The brackets of a rule are nested exactly if those of its literals are.**
Whatever a predicate that was read renders to, in a scope without quotes and
brackets, has its brackets nested if and only if each literal of the predicate has
them nested by itself. -/
theorem Predicate.nested_iff_of_renderIn {text : String} {p : Predicate}
    (hparse : Predicate.parse text = .ok p) (hscope : scope.IsFlat) {rendered : String}
    (h : p.renderIn scope = .ok rendered) :
    isNested rendered.toList = true ↔ ∀ literal ∈ p.literals, isNested literal.toList = true := by
  obtain ⟨t, ht, rfl⟩ := Predicate.exists_term_of_parse hparse
  obtain ⟨rule, hrule, hrender⟩ :=
    Term.renderIn_eq_ok_some.1 (Term.renderIn_of_toJunction ht h)
  obtain ⟨hfilled, hleaves⟩ := Term.allNested_of_traverse hscope ht hrule
  have hliterals : Predicate.literals t.toJunction = t.leaves.flatMap Clause.literals := by
    rw [Predicate.literals, Predicate.clauses, Formula.leaves_toJunction]
  rw [(Formula.nestsAs_of_render hfilled rendered hrender).isNested_eq, hleaves, ← hliterals,
    allNested, List.all_eq_true]

/-- Brackets inside quotes, and a list inside a call. -/
def Predicate.listInCall : Predicate :=
  ⟨.any, [.leaf (.condition ⟨.literal "f([1, ')'])", .equal, .field (.named "a")⟩),
    .leaf (.condition ⟨.field (.named "b"), .notMemberOf, .literal "[']', (2)]"⟩)]⟩

theorem Predicate.nested_listInCall :
    Predicate.parse "f([1, ')']) == $a OR $b not-in [']', (2)]" = .ok listInCall
      ∧ Scope.IsFlat ⟨"d", none⟩
      ∧ listInCall.renderIn ⟨"d", none⟩ = .ok "(f([1, ')']) == d.a || !(d.b in [']', (2)]))"
      ∧ isNested "(f([1, ')']) == d.a || !(d.b in [']', (2)]))".toList = true := by
  have hparse : Predicate.parse "f([1, ')']) == $a OR $b not-in [']', (2)]" = .ok listInCall :=
    Except.eq_ok_of_toOption (by decide +kernel)
  have hscope : Scope.IsFlat ⟨"d", none⟩ := ⟨by decide +kernel, fun text htext => nomatch htext⟩
  have hrender : listInCall.renderIn ⟨"d", none⟩
      = .ok "(f([1, ')']) == d.a || !(d.b in [']', (2)]))" := rfl
  have hliterals : ∀ literal ∈ listInCall.literals, isNested literal.toList = true := by
    decide +kernel
  exact ⟨hparse, hscope, hrender,
    (Predicate.nested_iff_of_renderIn hparse hscope hrender).2 hliterals⟩

/-- A list that contains a lone parenthesis. -/
def Predicate.loneCloser : Predicate :=
  ⟨.all, [.leaf (.condition ⟨.field (.named "a"), .memberOf, .literal "[)]"⟩),
    .leaf (.literal "true")]⟩

/-- The parenthesis in the list comes first behind the one that the group
opened. -/
theorem Predicate.not_nested_loneCloser :
    Predicate.parse "$a in [)] AND true" = .ok loneCloser
      ∧ Scope.IsFlat ⟨"d", none⟩
      ∧ loneCloser.renderIn ⟨"d", none⟩ = .ok "(d.a in [)] && true)"
      ∧ isNested "(d.a in [)] && true)".toList = false :=
  ⟨Except.eq_ok_of_toOption (by decide +kernel),
    ⟨by decide +kernel, fun text htext => nomatch htext⟩, rfl, by decide +kernel⟩

end SecurityRules
