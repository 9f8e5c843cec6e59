/-
  SecurityRules.Proofs.Shorthand.Resolved
  ────────────────────────────────
  **NO REFERENCE IS LEFT IN A RULE.**

  A text is free of references when every quoted text in it is closed and no
  sigil outside quotes stands in front of a name.  Whether a piece of text keeps
  this up depends on what stands behind it only if a quote is left open or a
  sigil comes last.  A text that leaves neither settles (`Settles`), and pieces
  that settle can be put together in any way.

    * Every literal settles: a quoted text is closed, a bracketed one is scanned
      for references when it is read, and a word has neither quotes nor sigils
      outside its calls (`settles_of_isLiteral`).
    * What is put for a reference settles if the scope has neither quotes nor
      sigils (`Operand.settles_of_resolve`).

  Main statement: `Predicate.referenceFree_of_renderIn`.
-/
import SecurityRules.Proofs.Formula.Rendering
import SecurityRules.Proofs.Shorthand.RoundTrip

namespace SecurityRules.Shorthand

open SecurityRules.Text

/-! ## §1. Scanning for references. -/

/-- Whether every quoted text is closed and no reference stands outside quotes,
where `quote` is the quote that is open. -/
def referenceFree : (quote : Option Char) → List Char → Bool
  | quote, [] => quote.isNone
  | some quote, '\\' :: _ :: rest => referenceFree (some quote) rest
  | some quote, c :: rest => referenceFree (if c = quote then none else some quote) rest
  | none, c :: rest =>
      if isQuote c then referenceFree (some c) rest
      else !(isSigil c && startsName rest) && referenceFree none rest

theorem referenceFree_escape (quote c : Char) (s : List Char) :
    referenceFree (some quote) ('\\' :: c :: s) = referenceFree (some quote) s := by
  rw [referenceFree]

/-- Between quotes only the closing quote counts. -/
theorem referenceFree_inQuote (quote : Char) {c : Char} (hc : c ≠ '\\') (s : List Char) :
    referenceFree (some quote) (c :: s)
      = referenceFree (if c = quote then none else some quote) s := by
  rw [referenceFree]
  intro d rest he
  exact absurd he hc

theorem referenceFree_quote {c : Char} (hc : isQuote c = true) (s : List Char) :
    referenceFree none (c :: s) = referenceFree (some c) s := by
  rw [referenceFree, if_pos hc]

/-- Outside quotes a sigil only counts in front of a name. -/
theorem referenceFree_outside {c : Char} {s : List Char} (hq : ¬isQuote c = true)
    (hs : ¬(isSigil c && startsName s) = true) :
    referenceFree none (c :: s) = referenceFree none s := by
  rw [referenceFree, if_neg hq, Bool.eq_false_iff.2 hs]
  rfl

/-! ## §2. Texts that settle. -/

/-- Whether scanning a text for references leaves everything as it is, whatever
follows. -/
def Settles (t : List Char) : Prop :=
  ∀ rest : List Char, referenceFree none (t ++ rest) = referenceFree none rest

/-- Texts that settle settle one behind the other. -/
theorem Settles.append {s t : List Char} (hs : Settles s) (ht : Settles t) :
    Settles (s ++ t) := by
  intro rest
  rw [List.append_assoc, hs, ht]

/-- A text that settles has no reference in it. -/
theorem Settles.referenceFree_eq_true {t : List Char} (h : Settles t) :
    referenceFree none t = true := by
  have hnil := h []
  rw [List.append_nil] at hnil
  exact hnil

/-- Whether a character is neither a quote nor a sigil. -/
def isInert (c : Char) : Bool :=
  !isQuote c && !isSigil c

/-- A text without quotes and sigils settles. -/
theorem settles_of_inert {t : List Char} (h : t.all isInert = true) : Settles t := by
  intro rest
  induction t with
  | nil => rfl
  | cons c t ih =>
      obtain ⟨hc, ht⟩ := Bool.and_eq_true_iff.1 h
      simp only [isInert, Bool.and_eq_true, Bool.not_eq_true'] at hc
      rw [List.cons_append, referenceFree_outside (by simp [hc.1]) (by simp [hc.2])]
      exact ih ht

theorem isInert_of_isWordChar {c : Char} (h : isWordChar c = true) : isInert c = true := by
  cases hi : isInert c with
  | true => rfl
  | false =>
      exfalso
      simp only [isInert, isQuote, isSigil, Bool.and_eq_false_iff, Bool.not_eq_false',
        Bool.or_eq_true, beq_iff_eq] at hi
      rcases hi with (rfl | rfl) | (rfl | rfl) <;> exact absurd h (by decide)

theorem settles_of_isPath {t : List Char} (h : isPath t = true) : Settles t := by
  refine settles_of_inert (List.all_eq_true.2 fun c hc => ?_)
  exact isInert_of_isWordChar (List.all_eq_true.1 (all_of_isPath h).1 c hc)

/-! ## §3. Literals settle. -/

/-- Behind an opening quote the scan is the one that looks for the closing
quote. -/
theorem referenceFree_afterQuote {quote : Char} (hq : quote ≠ '\\') {s rest : List Char}
    (h : afterQuote quote s = some rest) :
    referenceFree (some quote) s = referenceFree none rest := by
  fun_induction afterQuote quote s with
  | case1 => simp at h
  | case2 c s ih =>
      rw [referenceFree_escape]
      exact ih h
  | case3 s =>
      cases h
      rw [referenceFree_inQuote quote hq, if_pos rfl]
  | case4 c s hs hne ih =>
      have hc : c ≠ '\\' := ne_backslash_of_row (ne_nil_of_afterQuote h) hs
      rw [referenceFree_inQuote quote hc, if_neg hne]
      exact ih h

/-- A quoted text settles: a sigil between quotes does not count. -/
theorem settles_of_quoted {t : List Char} (h : quoted t = .found () []) : Settles t := by
  intro rest
  obtain ⟨c, s, rfl, hc⟩ := exists_cons_of_quoted h
  have hne := ne_backslash_of_isQuote hc
  rw [quoted, if_pos hc] at h
  split at h
  · next behind hs =>
      cases h
      rw [List.cons_append, referenceFree_quote hc]
      exact referenceFree_afterQuote hne (afterQuote_append hne rest hs)
  · simp [Reading.refuse] at h

/-- A bracket that is found to close has no open quote and no reference in front
of it. -/
theorem referenceFree_closeBracket {opening closing : Char} {depth : Nat} {quote : Option Char}
    {s rest : List Char} {u : Unit}
    (h : closeBracket opening closing depth quote s = .found u rest) :
    referenceFree quote s = referenceFree none rest := by
  -- both scans take the same steps; a reference would have stopped the first one
  fun_induction closeBracket opening closing depth quote s with
  | case1 => simp [Reading.refuse] at h
  | case2 depth quote c s ih =>
      rw [referenceFree_escape]
      exact ih h
  | case3 depth quote c s hs ih =>
      have hc : c ≠ '\\' := ne_backslash_of_row (ne_nil_of_closeBracket h) hs
      rw [referenceFree_inQuote quote hc]
      exact ih h
  | case4 depth c s hq ih =>
      rw [referenceFree_quote hq]
      exact ih h
  | case5 => simp [Reading.refuse] at h
  | case6 depth s hq hs ih =>
      rw [referenceFree_outside hq hs]
      exact ih h
  | case7 s hq hs hne =>
      cases h
      exact referenceFree_outside hq hs
  | case8 s depth hq hs hne ih =>
      rw [referenceFree_outside hq hs]
      exact ih h
  | case9 depth c s hq hs hne hne' ih =>
      rw [referenceFree_outside hq hs]
      exact ih h

/-- A text that a bracket closes settles: the scan for the bracket refuses
references. -/
theorem settles_of_bracketed {opening closing : Char} (hop : isInert opening = true)
    (hcl : isSigil closing = false) {t : List Char}
    (h : bracketed opening closing t = .found () []) : Settles t := by
  intro rest
  obtain ⟨s, rfl⟩ := exists_cons_of_bracketed h
  rw [bracketed, if_pos rfl] at h
  have hopen : Settles [opening] := settles_of_inert (by rw [List.all_cons, hop]; rfl)
  calc referenceFree none (opening :: s ++ rest)
      = referenceFree none (s ++ rest) := hopen (s ++ rest)
    _ = referenceFree none rest := referenceFree_closeBracket (closeBracket_append hcl rest h)

/-- A word settles, since its calls do. -/
theorem settles_of_wordBody {t : List Char} (h : WordBody t) : Settles t := by
  induction h with
  | nil => exact settles_of_inert rfl
  | @char c s hc _ ih =>
      have hone : Settles [c] :=
        settles_of_inert (by rw [List.all_cons, isInert_of_isWordChar hc]; rfl)
      exact hone.append ih
  | call ha _ ih => exact (settles_of_bracketed (by decide) (by decide) ha).append ih

theorem settles_of_isBareWord {t : List Char} (h : IsBareWord t) : Settles t := by
  obtain ⟨hsign, hbody, -, -, -⟩ := h
  refine Settles.append (settles_of_inert ?_) (settles_of_wordBody hbody)
  simp only [signs, List.mem_cons, List.not_mem_nil, or_false] at hsign
  rcases hsign with rfl | rfl | rfl | rfl <;> decide

/-- **Every literal settles**, of whichever kind it is. -/
theorem settles_of_isLiteral {text : String} (h : IsLiteral text) : Settles text.toList := by
  rcases h with hq | hl | hw
  · exact settles_of_quoted hq
  · exact settles_of_bracketed (by decide) (by decide) hl
  · exact settles_of_isBareWord (.of_bareWord hw)

end SecurityRules.Shorthand

namespace SecurityRules

open Shorthand SecurityRules.Text

/-! ## §4. Operands in a scope without references. -/

/-- Whether the document and the owner of a scope have neither quotes nor
sigils. -/
structure Scope.IsInert (scope : Scope) : Prop where
  document : scope.document.toList.all isInert = true
  owner : ∀ text ∈ scope.owner, text.toList.all isInert = true

variable {scope : Scope}

/-- What stands for a field is made of the characters of the scope and of those of
words. -/
theorem Reference.all_of_resolve {P : Char → Bool} (hword : ∀ c, isWordChar c = true → P c = true)
    (hdocument : scope.document.toList.all P = true)
    (howner : ∀ text ∈ scope.owner, text.toList.all P = true) {r : Reference}
    (hr : r.WellSpelled) {place : String} (h : r.resolve scope = .ok place) :
    place.toList.all P = true := by
  cases r with
  | this =>
      rw [Reference.resolve] at h
      split at h
      · next owner hsome =>
          cases h
          exact howner _ hsome
      · cases h
  | named n =>
      have hname : n.toList.all P = true := by
        have hall := (all_of_isPath (isPath_of_isName hr.1)).1
        exact List.all_eq_true.2 fun c hc => hword c (List.all_eq_true.1 hall c hc)
      rw [Reference.resolve] at h
      split at h
      · cases h
      · cases h
        -- below the empty path the name stands alone
        by_cases hdoc : scope.document = ""
        · rw [hdoc, Text.joinPath_empty]
          exact hname
        · have hdot : ".".toList.all P = true := by
            show [('.' : Char)].all P = true
            rw [List.all_cons, hword '.' (by decide)]
            rfl
          rw [Text.joinPath_of_ne hdoc, String.toList_append, String.toList_append,
            List.all_append, List.all_append, hdocument, hdot, hname]
          rfl

/-- A reference becomes a path, or the owner of the scope. -/
theorem Reference.settles_of_resolve (hscope : scope.IsInert) {r : Reference}
    (hr : r.WellSpelled) {place : String} (h : r.resolve scope = .ok place) :
    Settles place.toList :=
  settles_of_inert (Reference.all_of_resolve (fun _ => isInert_of_isWordChar) hscope.document
    hscope.owner hr h)

/-- **What an operand becomes settles.** Nothing is left of its sigil. -/
theorem Operand.settles_of_resolve (hscope : scope.IsInert) {o : Operand}
    (ho : o.WellSpelled) {text : String} (h : o.resolve scope = .ok text) :
    Settles text.toList := by
  rcases Operand.resolve_eq_ok.1 h with
    ⟨rfl, -⟩ | ⟨r, rfl, hr⟩ | ⟨via, path, place, rfl, -, hplace, rfl⟩
  · exact settles_of_isLiteral ho
  · exact Reference.settles_of_resolve hscope ho hr
  · have hget : Settles "get(".toList := settles_of_inert (by decide +kernel)
    have hdata : Settles ").data.".toList := settles_of_inert (by decide +kernel)
    have hvia := Reference.settles_of_resolve hscope ho.1 hplace
    simp only [String.toList_append]
    exact ((hget.append hvia).append hdata).append (settles_of_isPath ho.2)

/-- Operators bring neither quotes nor sigils with them. -/
theorem Operator.settles_apply (op : Operator) {left right : String}
    (hl : Settles left.toList) (hr : Settles right.toList) :
    Settles (op.apply left right).toList := by
  have hword : Settles op.spelling.toList :=
    settles_of_inert (by cases op <;> decide +kernel)
  have hspace : Settles " ".toList := settles_of_inert (by decide +kernel)
  have hin : Settles " in ".toList := settles_of_inert (by decide +kernel)
  have hnot : Settles "!(".toList := settles_of_inert (by decide +kernel)
  have hany : Settles ".hasAny(".toList := settles_of_inert (by decide +kernel)
  have hclose : Settles ")".toList := settles_of_inert (by decide +kernel)
  -- four ways to put two operands together
  cases op with
  | notMemberOf =>
      simp only [Operator.apply, String.toList_append]
      exact (((hnot.append hl).append hin).append hr).append hclose
  | contains =>
      simp only [Operator.apply, String.toList_append]
      exact (hr.append hin).append hl
  | containsAny =>
      simp only [Operator.apply, String.toList_append]
      exact ((hl.append hany).append hr).append hclose
  | equal | notEqual | less | lessOrEqual | greater | greaterOrEqual | memberOf | ofType =>
      simp only [Operator.apply, String.toList_append]
      exact (((hl.append hspace).append hword).append hspace).append hr

/-- What a clause becomes settles, whatever operator it has. -/
theorem Clause.settles_of_resolve (hscope : scope.IsInert) {c : Clause} (hc : c.WellSpelled)
    {text : String} (h : c.resolve scope = .ok (some text)) : Settles text.toList := by
  rcases Clause.resolve_eq_ok_some.1 h with ⟨rfl, -⟩ | ⟨d, rfl, hd⟩
  · exact settles_of_isLiteral hc
  · obtain ⟨left, right, hleft, hright, rfl⟩ := Condition.resolve_eq_ok.1 hd
    exact d.operator.settles_apply (Operand.settles_of_resolve hscope hc.1 hleft)
      (Operand.settles_of_resolve hscope hc.2 hright)

/-! ## §5. Rules. -/

/-- Connectives and parentheses bring neither quotes nor sigils with them. -/
theorem Shorthand.joins_settles : Joins Settles where
  append hs ht := hs.append ht
  symbol c := settles_of_inert (by cases c <;> decide +kernel)
  group hs := by
    have hopen : Settles ['('] := settles_of_inert (by decide)
    have hclose : Settles [')'] := settles_of_inert (by decide)
    exact hopen.append (hs.append hclose)

/-- What a predicate that was read renders to is the text of a rule, and each
leaf of the rule is what one of the clauses becomes. -/
theorem Predicate.exists_rule_of_renderIn {text : String} {p : Predicate}
    (hparse : Predicate.parse text = .ok p) {rendered : String}
    (h : p.renderIn scope = .ok rendered) :
    ∃ rule : Formula String, rule.render = .ok (some rendered)
      ∧ rule.Filled (fun leaf => ∃ c : Clause, c.WellSpelled
          ∧ c.resolve scope = .ok (some leaf)) 2 := by
  obtain ⟨t, ht, rfl⟩ := Predicate.exists_term_of_parse hparse
  obtain ⟨rule, hrule, hrender⟩ :=
    Term.renderIn_eq_ok_some.1 (Term.renderIn_of_toJunction ht h)
  refine ⟨rule, hrender, Formula.Filled.traverse (ht.mono ?_ (Nat.le_refl 2)) hrule⟩
  intro c hc
  have hkeep : c.resolve scope ≠ .ok none :=
    Clause.resolve_ne_none (Clause.isBlank_of_wellSpelled hc)
  exact ⟨hkeep, fun leaf hleaf => ⟨c, hc, hleaf⟩⟩

/-- **No reference is left in a rule.** Whatever a predicate that was read
renders to, in a scope without quotes and sigils, has all its quoted texts
closed and no reference outside them. -/
theorem Predicate.referenceFree_of_renderIn {text : String} {p : Predicate}
    (hparse : Predicate.parse text = .ok p) (hscope : scope.IsInert) {rendered : String}
    (h : p.renderIn scope = .ok rendered) : referenceFree none rendered.toList = true := by
  obtain ⟨rule, hrender, hleaves⟩ := Predicate.exists_rule_of_renderIn hparse h
  have hsettles : rule.Filled (fun leaf => Settles leaf.toList) 2 := by
    refine hleaves.mono (fun leaf hleaf => ?_) (Nat.le_refl 2)
    obtain ⟨c, hc, hresolve⟩ := hleaf
    exact Clause.settles_of_resolve hscope hc hresolve
  exact (Formula.joins_of_render joins_settles hsettles hrender).referenceFree_eq_true

/-- That a user is not banned, and that a store is marked by a text in which
sigils and a quote of the other kind are quoted. -/
def Predicate.markedStore : Predicate :=
  ⟨.all, [.leaf (.literal "!exists(/d/$(database)/bans/x)"),
    .leaf (.condition ⟨.lookup (.named "store") "mark", .equal, .literal "\"@a $b'\\\"\""⟩)]⟩

theorem Predicate.referenceFree_markedStore :
    Predicate.parse "!exists(/d/$(database)/bans/x) AND @store.mark == \"@a $b'\\\"\""
        = .ok markedStore
      ∧ Scope.IsInert ⟨"resource.data", none⟩
      ∧ markedStore.renderIn ⟨"resource.data", none⟩ = .ok
        "(!exists(/d/$(database)/bans/x) && get(resource.data.store).data.mark == \"@a $b'\\\"\")"
      ∧ referenceFree none "(!exists(/d/$(database)/bans/x) && get(resource.data.store).data.mark == \"@a $b'\\\"\")".toList
        = true := by
  have hparse : Predicate.parse
      "!exists(/d/$(database)/bans/x) AND @store.mark == \"@a $b'\\\"\"" = .ok markedStore :=
    Except.eq_ok_of_toOption (by decide +kernel)
  have hscope : Scope.IsInert ⟨"resource.data", none⟩ :=
    ⟨by decide +kernel, fun text htext => nomatch htext⟩
  have hrender : markedStore.renderIn ⟨"resource.data", none⟩ = .ok
      "(!exists(/d/$(database)/bans/x) && get(resource.data.store).data.mark == \"@a $b'\\\"\")" :=
    rfl
  exact ⟨hparse, hscope, hrender, Predicate.referenceFree_of_renderIn hparse hscope hrender⟩

/-- A reference within a call is seen, and so is a quote left open. -/
example : referenceFree none "f($owner)".toList = false
    ∧ referenceFree none "f('x)".toList = false := by
  decide +kernel

end SecurityRules
