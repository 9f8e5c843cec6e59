/-
  SecurityRules.Proofs.Shorthand.FaultPlace
  ────────────────────────────────
  **WHERE A TEXT GOES WRONG.**

  A syntax error has one offset, and it should be that of the fault.  What is
  read in front of the fault is read as it was without it, so the offset is
  found by following the readers up to the place where the text is cut short or
  goes on as it cannot.

    * `Reading.RunsOut` — reading stops for good at the end of the text; this
      passes through all that may stand around a reader;
    * `afterQuote_eq_none_iff` — a quoted text has no end where every quote is
      escaped;
    * `Level.runsOut_cons`, `Phrase.runsOut_chain` — a chain runs out where its
      last member does, whatever was read in front of it.

  Main statement: `Predicate.offset_of_parse`.
-/
import SecurityRules.Proofs.Result
import SecurityRules.Proofs.Shorthand.Extension

namespace SecurityRules.Shorthand

open SecurityRules.Text

/-! ## §1. Readings that run out. -/

namespace Reading

variable {α β : Type} {r : Reading α}

/-- Whether reading stops for good at the end of the text. -/
def RunsOut (r : Reading α) : Prop :=
  ∃ notes, r = .refuse [] notes

theorem RunsOut.andThen (h : r.RunsOut) (next : α → List Char → Reading β) :
    (r.andThen next).RunsOut := by
  obtain ⟨notes, rfl⟩ := h
  exact ⟨notes, rfl⟩

theorem RunsOut.orElse (h : r.RunsOut) (other : Unit → Reading α) : (r.orElse other).RunsOut := by
  obtain ⟨notes, rfl⟩ := h
  exact ⟨notes, rfl⟩

theorem RunsOut.commit (h : r.RunsOut) : r.commit.RunsOut := by
  obtain ⟨notes, rfl⟩ := h
  exact ⟨notes, rfl⟩

theorem RunsOut.noting (h : r.RunsOut) (note : Note) : (r.noting note).RunsOut := by
  obtain ⟨notes, rfl⟩ := h
  exact ⟨notes ++ [note], rfl⟩

theorem runsOut_map {f : α → β} : (r.map f).RunsOut ↔ r.RunsOut := by
  cases r with
  | found a rest => simp [RunsOut, refuse]
  | failed stop => simp [RunsOut, refuse]

/-- A repetition runs out where its first round does. -/
theorem runsOut_many {item : List Char → Reading α} {s : List Char} (h : (item s).RunsOut) :
    (many item s).RunsOut := by
  obtain ⟨notes, hitem⟩ := h
  exact ⟨notes, many_of_committed hitem⟩

end Reading

/-! ## §2. Quotes without an end. -/

/-- The number of backslashes at the end of a text. -/
def trailingBackslashes (s : List Char) : Nat :=
  (s.reverse.takeWhile (· == '\\')).length

/-- Whether every `quote` in a text is escaped: the number of backslashes right
in front of it is odd. -/
def QuotesEscaped (quote : Char) (s : List Char) : Prop :=
  ∀ front rest, s = front ++ quote :: rest → trailingBackslashes front % 2 = 1

/-- The backslashes at the end of a text go on into what is in front of it only
if it consists of them. -/
theorem trailingBackslashes_append (front s : List Char) :
    trailingBackslashes (front ++ s)
      = if trailingBackslashes s = s.length then s.length + trailingBackslashes front
        else trailingBackslashes s := by
  unfold trailingBackslashes
  rw [List.reverse_append, List.takeWhile_append, List.length_reverse]
  split
  · rw [List.length_append, List.length_reverse]
  · rfl

/-- Any other character in front of a text adds none. -/
theorem trailingBackslashes_cons {c : Char} (hc : c ≠ '\\') (s : List Char) :
    trailingBackslashes (c :: s) = trailingBackslashes s := by
  have hone : trailingBackslashes [c] = 0 := by
    simp [trailingBackslashes, hc]
  rw [← List.singleton_append, trailingBackslashes_append, hone]
  split
  · next h => exact h.symm
  · rfl

/-- An escape in front of a text changes no parity in it. -/
theorem trailingBackslashes_escape (c : Char) (s : List Char) :
    trailingBackslashes ('\\' :: c :: s) % 2 = trailingBackslashes s % 2 := by
  have htwo : trailingBackslashes ['\\', c] % 2 = 0 := by
    by_cases hc : c = '\\'
    · subst hc
      decide
    · simp [trailingBackslashes, hc]
  show trailingBackslashes (['\\', c] ++ s) % 2 = _
  rw [trailingBackslashes_append]
  split <;> omega

/-- A quoted text has no end where every quote is escaped, and only there. -/
theorem afterQuote_eq_none_iff {quote : Char} (hq : quote ≠ '\\') {s : List Char} :
    afterQuote quote s = none ↔ QuotesEscaped quote s := by
  -- along the scan: an escape takes two characters, anything else one
  fun_induction afterQuote quote s with
  | case1 =>
      refine iff_of_true rfl fun front rest h => ?_
      simp at h
  | case2 c s ih =>
      rw [ih]
      constructor
      · intro h front rest heq
        cases front with
        -- in front of the quote stands nothing, only the backslash, or the whole escape
        | nil => exact absurd (List.cons.inj heq).1.symm hq
        | cons d front =>
            cases front with
            | nil =>
                obtain ⟨rfl, -⟩ := List.cons.inj heq
                decide
            | cons e front =>
                simp only [List.cons_append, List.cons.injEq] at heq
                obtain ⟨rfl, rfl, hs⟩ := heq
                rw [trailingBackslashes_escape]
                exact h front rest hs
      · intro h front rest heq
        have hodd := h ('\\' :: c :: front) rest (by rw [heq]; rfl)
        rwa [trailingBackslashes_escape] at hodd
  | case3 s =>
      refine iff_of_false (by simp) fun h => ?_
      -- the quote at the head has no backslash in front of it
      have hodd := h [] s rfl
      exact absurd hodd (by decide)
  | case4 c s hs hne ih =>
      rw [ih]
      constructor
      · intro h front rest heq
        cases front with
        | nil => exact absurd (List.cons.inj heq).1 hne
        | cons d front =>
            obtain ⟨rfl, rfl⟩ := List.cons.inj heq
            have hc : c ≠ '\\' := ne_backslash_of_row (by simp) hs
            rw [trailingBackslashes_cons hc]
            exact h front rest rfl
      · intro h front rest heq
        have hc : c ≠ '\\' := ne_backslash_of_row (by simp [heq]) hs
        have hodd := h (c :: front) rest (by rw [heq]; rfl)
        rwa [trailingBackslashes_cons hc] at hodd

/-! ## §3. Terms that run out. -/

/-- A term that starts with a quote without an end runs out. -/
theorem runsOut_of_quote {t : List Char} (ht : QuotesEscaped '"' t) :
    (termWith expression (' ' :: '"' :: t)).RunsOut := by
  have hskip : afterLayout ('"' :: t) = '"' :: t := afterLayout_of_not_opensGap (by decide) t
  have hquoted : (verbatim quoted ('"' :: t)).RunsOut := by
    have hnone : afterQuote '"' t = none := (afterQuote_eq_none_iff (by decide)).2 ht
    refine Reading.RunsOut.andThen ⟨[], ?_⟩ _
    rw [quoted, if_pos (by decide), hnone]
  have hoperand : (operandHere ('"' :: t)).RunsOut := by
    rw [operandHere_eq_orElse, fieldOperand_of_ne (by decide), lookupOperand_of_ne (by decide)]
    show (literalHere ('"' :: t)).RunsOut
    exact Reading.RunsOut.orElse (Reading.runsOut_map.2 hquoted) _
  -- only a literal can start with a quote, and a clause starts with its operand
  have hclause : (clause ('"' :: t)).RunsOut := by
    refine Reading.RunsOut.andThen ?_ _
    rw [operand, hskip]
    exact hoperand.noting _
  have hterm : (termHereWith expression ('"' :: t)).RunsOut :=
    Reading.RunsOut.noting (Reading.runsOut_map.2 hclause) _
  have hspace : afterLayout (' ' :: '"' :: t) = '"' :: t :=
    (afterLayout_white (by decide) _).trans hskip
  rw [termWith, hspace]
  exact hterm

/-- A term that starts with a group without an end runs out. -/
theorem runsOut_of_group {s rest : List Char} {t : Term} (hinner : expression s = .found t rest)
    (hend : afterLayout rest = []) : (termWith expression ('(' :: s)).RunsOut := by
  have hskip : afterLayout ('(' :: s) = '(' :: s := afterLayout_of_not_opensGap (by decide) s
  have hclose : (closeGroup t rest).RunsOut := by
    rw [closeGroup, hend]
    exact ⟨[], rfl⟩
  have hgroup : (groupWith expression ('(' :: s)).RunsOut := by
    show ((expression s).andThen closeGroup).RunsOut
    rw [hinner]
    exact hclose
  rw [termWith, hskip]
  exact (hgroup.orElse _).noting _

/-! ## §4. Chains that run out. -/

/-- A chain runs out where its first member does. -/
theorem runsOut_of_member {c : Connective} {member : List Char → Reading Term} {s : List Char}
    (h : (member s).RunsOut) : (chain c member s).RunsOut :=
  h.andThen _

/-- An expression runs out where its first term does. -/
theorem runsOut_expression {s : List Char} (h : (termWith expression s).RunsOut) :
    (expression s).RunsOut := by
  rw [expression_eq]
  exact runsOut_of_member (runsOut_of_member h)

namespace Level

variable {c : Connective}

/-- A chain runs out with what is joined to a member that was read. -/
theorem runsOut_of_link {s rest : List Char} {member : Term}
    (hmember : (memberOf c).reader s = .found member rest)
    (hlink : (Reading.many (link c (memberOf c).reader) rest).RunsOut) :
    ((chain c).readMembers s).RunsOut := by
  rw [readMembers, hmember]
  exact Reading.runsOut_map.2 hlink

/-- With one more member in front, a chain that runs out still does. -/
theorem runsOut_cons {s rest after : List Char} {member : Term}
    (hmember : (memberOf c).reader s = .found member rest)
    (hjoint : afterConnective c (afterLayout rest) = some after)
    (hmore : ((chain c).readMembers after).RunsOut) : ((chain c).readMembers s).RunsOut := by
  refine runsOut_of_link hmember ?_
  -- the chain behind the connective runs out in its first member or behind it
  rw [readMembers] at hmore
  have hbehind : link c (memberOf c).reader rest = ((memberOf c).reader after).commit :=
    link_of_afterConnective hjoint
  cases hfirst : (memberOf c).reader after with
  | failed stop =>
      rw [hfirst] at hmore hbehind
      obtain ⟨notes, hstop⟩ := hmore
      cases hstop
      exact Reading.runsOut_many ⟨notes, hbehind⟩
  | found first mid =>
      rw [hfirst] at hmore
      have hmany : (Reading.many (link c (memberOf c).reader) mid).RunsOut :=
        Reading.runsOut_map.1 hmore
      have hlink : link c (memberOf c).reader rest = .found first mid := by
        rw [hbehind, hfirst]
        rfl
      have hlt : mid.length < rest.length :=
        (advancesAt_link (fun r _ => (memberOf c).advancesAt_reader r) first mid hlink).2
      rw [Reading.many_of_found hlink hlt]
      exact Reading.runsOut_map.2 hmany

end Level

namespace Phrase

variable {rest more : List Char}

/-- A chain runs out where its last member, read as a chain of one, does. -/
theorem runsOut_chain {c : Connective}
    (hlast : ∀ last : Phrase (Level.memberOf c), last.Fits rest → ∀ g : Gap,
      ((Level.chain c).readMembers
        (Gap.text g ++ (last.text ++ (rest ++ '\n' :: more)))).RunsOut) :
    ∀ p : Phrase (.chain c), p.Fits rest → ∀ g : Gap,
      ((Level.chain c).readMembers (Gap.text g ++ (p.text ++ (rest ++ '\n' :: more)))).RunsOut
  | .single member, h, g => hlast member h.1 g
  | .joined member joint tail, h, g => by
      obtain ⟨hm, hj, htail⟩ := h
      have hm' := member.fits_extend hm more
      have hj' := hj.extend more
      simp only [List.append_assoc] at hm' hj'
      -- the joint stops the member, so it is read up to there
      have hread := member.read (hm' (Level.stopsAt_joint joint _)) g
      have hskip := joint.afterLayout_text (tail.text ++ (rest ++ '\n' :: more))
      rw [text, List.append_assoc, List.append_assoc]
      exact Level.runsOut_cons hread (hskip ▸ hj') (runsOut_chain hlast tail htail joint.after)

/-- An expression runs out when a conjunct that does is joined to it. -/
theorem runsOut_of_link (hop : operator? (rest ++ '\n' :: more) = none)
    (hlink : (link .all (termWith expression) (rest ++ '\n' :: more)).RunsOut)
    (p : Phrase (.chain .any)) (h : p.Fits rest) (g : Gap) :
    (expression (Gap.text g ++ (p.text ++ (rest ++ '\n' :: more)))).RunsOut := by
  have hall : ∀ q : Phrase (.chain .all), q.Fits rest → ∀ g : Gap,
      ((Level.chain .all).readMembers
        (Gap.text g ++ (q.text ++ (rest ++ '\n' :: more)))).RunsOut := by
    refine runsOut_chain fun last hl g => ?_
    have hread := last.read (last.fits_extend hl more hop) g
    exact Level.runsOut_of_link hread (Reading.runsOut_many hlink)
  -- the last conjunct of the last alternative stands where the link is read
  have hany : ((Level.chain .any).readMembers
      (Gap.text g ++ (p.text ++ (rest ++ '\n' :: more)))).RunsOut := by
    refine runsOut_chain (fun last hl g => ?_) p h g
    refine Reading.RunsOut.andThen ?_ _
    rw [Level.reader_eq_map]
    exact Reading.runsOut_map.2 (hall last hl g)
  show ((Level.chain .any).reader _).RunsOut
  rw [Level.reader_eq_map]
  exact Reading.runsOut_map.2 hany

end Phrase

end SecurityRules.Shorthand

namespace SecurityRules

open Shorthand SecurityRules.Text

/-! ## §5. Offsets. -/

/-- The offset of a syntax error is the number of bytes in front of the place
where reading stopped. -/
theorem SyntaxError.offset_stoppedAt (front rest : List Char) (notes : List Note) :
    (SyntaxError.stoppedAt (front ++ rest) rest notes).offset = byteLength front := by
  rw [SyntaxError.offset, SyntaxError.stoppedAt, textBefore_append]

/-- A text that runs out is refused at its end. -/
theorem Predicate.parse_of_runsOut {text : String} (h : (expression text.toList).RunsOut) :
    ∃ e, Predicate.parse text = .error e ∧ e.offset = text.utf8ByteSize := by
  obtain ⟨notes, hread⟩ := h
  refine ⟨.stoppedAt text.toList [] (notes ++ [.predicate]), ?_, ?_⟩
  · rw [Predicate.parse, Predicate.parseChars, hread]
    rfl
  · have hoffset := SyntaxError.offset_stoppedAt text.toList [] (notes ++ [.predicate])
    rwa [List.append_nil, byteLength_toList] at hoffset

/-- A text is refused where an expression in it is followed by what is neither
layout nor carries the expression on. -/
theorem Predicate.parse_of_leftover {text : String} {front rest : List Char} {c : Char} {t : Term}
    (htext : text.toList = front ++ c :: rest) {mid : List Char}
    (hread : expression text.toList = .found t mid) (hleft : afterLayout mid = c :: rest) :
    ∃ e, Predicate.parse text = .error e ∧ e.offset = byteLength front := by
  refine ⟨.stoppedAt text.toList (c :: rest) [], ?_, ?_⟩
  · rw [Predicate.parse, Predicate.parseChars, hread]
    simp only [Reading.noting_found, hleft]
  · rw [htext]
    exact SyntaxError.offset_stoppedAt front (c :: rest) []

variable {text : String} {p : Predicate}

/-- A parenthesis that closes nothing is where the fault is. -/
theorem Predicate.offset_of_closing (h : Predicate.parse text = .ok p) (t : String) :
    ∃ e, Predicate.parse (text ++ "\n)" ++ t) = .error e ∧ e.offset = text.utf8ByteSize + 1 := by
  obtain ⟨lead, e, trail, htext, -, hfits⟩ := Predicate.exists_phrase_of_parse h
  have hchars : (text ++ "\n)" ++ t).toList = (text.toList ++ ['\n']) ++ ')' :: t.toList := by
    simp [String.toList_append]
  have hread := e.read (hfits _ (Level.stopsAt_closing trail t.toList)) lead
  have hleft := afterLayout_gap_cons trail (c := ')') (by decide) t.toList
  have hsame : (text ++ "\n)" ++ t).toList
      = Gap.text lead ++ (e.text ++ (Gap.text trail ++ ')' :: t.toList)) := by
    rw [hchars, htext]
    simp only [List.append_assoc]
  rw [← hsame] at hread
  obtain ⟨error, herror, hoffset⟩ := Predicate.parse_of_leftover hchars hread hleft
  refine ⟨error, herror, ?_⟩
  rw [hoffset, byteLength_append, byteLength_toList]
  rfl

/-- Where a parenthesis is not closed, the fault is at the end. -/
theorem Predicate.offset_of_opening (h : Predicate.parse text = .ok p) :
    ∃ e, Predicate.parse ("(" ++ text ++ "\n") = .error e
      ∧ e.offset = ("(" ++ text ++ "\n").utf8ByteSize := by
  obtain ⟨lead, e, trail, htext, -, hfits⟩ := Predicate.exists_phrase_of_parse h
  have hend := afterLayout_gap_eq_nil trail
  have hstop : Level.StopsAt (.chain .any) (Gap.text trail ++ []) := by
    rw [List.append_nil]
    exact Level.stopsAt_of_afterLayout_eq_nil hend
  have hends := hfits [] hstop
  rw [List.append_nil] at hends
  have hchars : ("(" ++ text ++ "\n").toList
      = '(' :: (Gap.text lead ++ (e.text ++ Gap.text trail)) := by
    rw [← htext]
    simp [String.toList_append]
  refine Predicate.parse_of_runsOut ?_
  rw [hchars]
  exact runsOut_expression (runsOut_of_group (e.read hends lead) hend)

/-- Where a quote is not closed, the fault is at the end. -/
theorem Predicate.offset_of_quote (h : Predicate.parse text = .ok p) {t : String}
    (ht : QuotesEscaped '"' t.toList) :
    ∃ e, Predicate.parse (text ++ "\nAND \"" ++ t) = .error e
      ∧ e.offset = (text ++ "\nAND \"" ++ t).utf8ByteSize := by
  obtain ⟨lead, e, layout, htext, hfits, hend, -⟩ := Predicate.parse_eq_ok_iff.1 h
  -- behind the layout stands a connective, and behind that nothing is read
  have hskip : afterLayout (layout ++ '\n' :: ("AND \"".toList ++ t.toList))
      = "AND \"".toList ++ t.toList :=
    afterLayout_append_line hend (by decide) _
  have hop : operator? (layout ++ '\n' :: ("AND \"".toList ++ t.toList)) = none := by
    rw [operator?, hskip]
    exact operatorHere?_spelling (c := .all) .upper (' ' :: '"' :: t.toList)
  have hlink : (link .all (termWith expression)
      (layout ++ '\n' :: ("AND \"".toList ++ t.toList))).RunsOut := by
    have hjoint : afterConnective .all ("AND \"".toList ++ t.toList)
        = some (' ' :: '"' :: t.toList) :=
      afterConnective_of_head (c := .all) .upper rfl
    rw [link_of_afterConnective (hskip ▸ hjoint)]
    exact (runsOut_of_quote ht).commit
  refine Predicate.parse_of_runsOut ?_
  have hchars : (text ++ "\nAND \"" ++ t).toList
      = Gap.text lead ++ (e.text ++ (layout ++ '\n' :: ("AND \"".toList ++ t.toList))) := by
    rw [String.toList_append, String.toList_append, htext]
    simp only [List.append_assoc]
    rfl
  rw [hchars]
  exact Phrase.runsOut_of_link hop hlink e hfits lead

/-- **A syntax error points at the fault**, whatever was read in front of it. Of
a text that is read as a predicate on its own:

  * behind it, a parenthesis that closes nothing is refused where it stands;
  * in a parenthesis that is not closed, it is refused at the end;
  * with a quoted text that is not closed joined to it, it is refused at the
    end. -/
theorem Predicate.offset_of_parse (h : Predicate.parse text = .ok p) :
    (∀ t : String, ∃ e, Predicate.parse (text ++ "\n)" ++ t) = .error e
        ∧ e.offset = text.utf8ByteSize + 1)
      ∧ (∃ e, Predicate.parse ("(" ++ text ++ "\n") = .error e
        ∧ e.offset = ("(" ++ text ++ "\n").utf8ByteSize)
      ∧ ∀ t : String, QuotesEscaped '"' t.toList →
          ∃ e, Predicate.parse (text ++ "\nAND \"" ++ t) = .error e
            ∧ e.offset = (text ++ "\nAND \"" ++ t).utf8ByteSize :=
  ⟨Predicate.offset_of_closing h, Predicate.offset_of_opening h,
    fun _ => Predicate.offset_of_quote h⟩

/-- Offsets count bytes, also in front of the fault and within a comment. -/
theorem Predicate.offset_of_parse_commented :
    Predicate.parse "a == 'é' # ü" = .ok
        ⟨.all, [.leaf (.condition ⟨.literal "a", .equal, .literal "'é'"⟩)]⟩
      ∧ (∃ e, Predicate.parse "a == 'é' # ü\n) or b" = .error e ∧ e.offset = 15)
      ∧ (∃ e, Predicate.parse "(a == 'é' # ü\n" = .error e ∧ e.offset = 16)
      ∧ QuotesEscaped '"' "ß \\\" b".toList
      ∧ ∃ e, Predicate.parse "a == 'é' # ü\nAND \"ß \\\" b" = .error e ∧ e.offset = 27 := by
  have hparse : Predicate.parse "a == 'é' # ü" = .ok
      ⟨.all, [.leaf (.condition ⟨.literal "a", .equal, .literal "'é'"⟩)]⟩ :=
    Except.eq_ok_of_toOption (by decide +kernel)
  have hescaped : QuotesEscaped '"' "ß \\\" b".toList :=
    (afterQuote_eq_none_iff (by decide)).1 (by decide +kernel)
  obtain ⟨hclosing, hopening, hquote⟩ := Predicate.offset_of_parse hparse
  -- the three texts as they stand, and their sizes
  have hclosed : "a == 'é' # ü" ++ "\n)" ++ " or b" = "a == 'é' # ü\n) or b" := by decide +kernel
  have hopened : "(" ++ "a == 'é' # ü" ++ "\n" = "(a == 'é' # ü\n" := by decide +kernel
  have hquoted : "a == 'é' # ü" ++ "\nAND \"" ++ "ß \\\" b"
      = "a == 'é' # ü\nAND \"ß \\\" b" := by decide +kernel
  have hsize : "a == 'é' # ü".utf8ByteSize + 1 = 15 := by decide +kernel
  have hsize' : "(a == 'é' # ü\n".utf8ByteSize = 16 := by decide +kernel
  have hsize'' : "a == 'é' # ü\nAND \"ß \\\" b".utf8ByteSize = 27 := by decide +kernel
  have hfirst := hclosing " or b"
  have hthird := hquote _ hescaped
  rw [hclosed, hsize] at hfirst
  rw [hopened, hsize'] at hopening
  rw [hquoted, hsize''] at hthird
  exact ⟨hparse, hfirst, hopening, hescaped, hthird⟩

end SecurityRules
