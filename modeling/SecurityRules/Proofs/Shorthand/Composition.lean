/-
  SecurityRules.Proofs.Shorthand.Composition
  ────────────────────────────────
  **PREDICATES PUT TOGETHER AS TEXTS.**

  Texts of predicates are put together by a connective when each is written in
  parentheses, with the closing one on a line of its own.  A text need not be
  known for that: the line feed ends a comment in it, and the parenthesis ends
  all the rest.

    * `Predicate.exists_group_of_parse` — a text in parentheses is one term,
      whatever follows;
    * `Phrase.fits_chainOf` — such terms make up a chain;
    * `Term.exists_rules_of_renderIn` — terms that render one by one render
      together.

  Main statement: `Predicate.parse_compose`.
-/
import SecurityRules.Proofs.Shorthand.Extension
import SecurityRules.Proofs.Shorthand.RoundTrip

namespace SecurityRules

open Shorthand SecurityRules.Text

/-! ## §1. Putting texts together. -/

/-- A text in parentheses, with the closing one on a line of its own. -/
def enclosedText (text : String) : String :=
  "(" ++ text ++ "\n)"

/-- Texts put together by a connective. -/
def Connective.compose (c : Connective) (texts : List String) : String :=
  (" " ++ c.keyword ++ " ").intercalate (texts.map enclosedText)

/-- A predicate as a term of a larger one: its only term, or else the predicate
as a whole. -/
def Predicate.asTerm (p : Predicate) : Term :=
  p.connective.gather p.parts

/-- A term survives the way into a predicate and back if each of its junctions
has two parts. -/
theorem Predicate.asTerm_toJunction {P : Clause → Prop} {t : Term} (h : t.Filled P 2) :
    Predicate.asTerm t.toJunction = t := by
  cases h with
  | leaf h => rfl
  | @node c parts hlen _ =>
      have hne : parts.length ≠ 1 := by omega
      exact Formula.gather_of_two_le c hne

/-! ## §2. Chains of groups. -/

namespace Shorthand.Phrase

variable {c : Connective}

/-- A term fits as a member of a chain where the chain may stop. -/
theorem fits_asMember {p : Phrase .term} {rest : List Char} (h : p.Fits rest)
    (hstop : (Level.memberOf c).StopsAt rest) : (asMember c p).Fits rest := by
  cases c with
  | all => exact h
  | any => exact ⟨h, hstop.2⟩

/-- A conjunction or an alternative fits as an expression where expressions may
stop. -/
theorem fits_loosen {p : Phrase (.chain c)} {rest : List Char} (h : p.Fits rest)
    (hstop : Level.StopsAt (.chain .any) rest) : p.loosen.Fits rest := by
  cases c with
  | all => exact ⟨h, hstop.2⟩
  | any => exact h

/-- A chain with layout around its joints fits when its members do. -/
theorem fits_chainOf {joint : Joint c} (hafter : joint.after ≠ []) {rest : List Char}
    (hstop : Level.StopsAt (.chain c) rest) (first : Phrase (Level.memberOf c))
    (more : List (Phrase (Level.memberOf c)))
    (h : ∀ p ∈ first :: more, ∀ s, (Level.memberOf c).StopsAt s → p.Fits s) :
    (chainOf joint first more).Fits rest := by
  induction more generalizing first with
  | nil =>
      obtain ⟨hs, hend⟩ := Level.stopsAt_chain.1 hstop
      exact ⟨h first List.mem_cons_self rest hs, hend⟩
  | cons next more ih =>
      refine ⟨h first List.mem_cons_self _ (Level.stopsAt_joint joint _),
        joint.endsBefore _ (.inl hafter) rest, ?_⟩
      exact ih next fun p hp => h p (List.mem_cons_of_mem _ hp)

/-- Terms that fit in front of everything make up an expression that does so up to
where it is carried on. -/
theorem fits_expressionOf {joint : Joint c} (hafter : joint.after ≠ []) (first : Phrase .term)
    (more : List (Phrase .term)) (h : ∀ p ∈ first :: more, ∀ s, p.Fits s) {rest : List Char}
    (hstop : Level.StopsAt (.chain .any) rest) : (expressionOf joint first more).Fits rest := by
  have hchain : Level.StopsAt (.chain c) rest := by
    cases c with
    | all => exact hstop.1
    | any => exact hstop
  refine fits_loosen (fits_chainOf hafter hchain _ _ fun p hp s hs => ?_) hstop
  rw [← List.map_cons] at hp
  obtain ⟨q, hq, rfl⟩ := List.mem_map.1 hp
  exact fits_asMember (h q hq s) hs

end Shorthand.Phrase

/-- A text that is read as a predicate is one term when it stands in
parentheses. -/
theorem Predicate.exists_group_of_parse {text : String} {p : Predicate}
    (h : Predicate.parse text = .ok p) :
    ∃ q : Phrase .term, q.text = (enclosedText text).toList ∧ q.term = p.asTerm
      ∧ ∀ rest, q.Fits rest := by
  obtain ⟨lead, e, trail, htext, rfl, hfits⟩ := Predicate.exists_phrase_of_parse h
  refine ⟨.group lead e trail, ?_, ?_, fun rest => ?_⟩
  · have hline : (enclosedText text).toList = '(' :: ((text.toList ++ ['\n']) ++ [')']) := by
      rw [enclosedText, String.toList_append, String.toList_append, List.append_assoc,
        List.append_assoc]
      rfl
    rw [hline, htext, Phrase.text]
    simp only [List.append_assoc]
  · exact (Predicate.asTerm_toJunction e.filled_term.1).symm
  · exact hfits _ (Level.stopsAt_closing trail rest)

/-- Texts that parse are phrases of groups when each is put in parentheses, and
these fit in front of anything. -/
theorem Predicate.exists_groups_of_parse {texts : List String} {ps : List Predicate}
    (h : texts.mapM Predicate.parse = .ok ps) :
    ∃ qs : List (Phrase .term), qs.map Phrase.text = (texts.map enclosedText).map String.toList
      ∧ qs.map Phrase.term = ps.map Predicate.asTerm ∧ ∀ q ∈ qs, ∀ rest, q.Fits rest := by
  induction texts generalizing ps with
  | nil =>
      cases h
      exact ⟨[], rfl, rfl, fun q hq => absurd hq List.not_mem_nil⟩
  | cons text texts ih =>
      obtain ⟨p, rest, hp, hrest, rfl⟩ := mapM_cons_eq_ok.1 h
      obtain ⟨q, htext, hterm, hfits⟩ := Predicate.exists_group_of_parse hp
      obtain ⟨qs, htexts, hterms, hall⟩ := ih hrest
      refine ⟨q :: qs, ?_, ?_, ?_⟩
      · rw [List.map_cons, List.map_cons, List.map_cons, htext, htexts]
      · rw [List.map_cons, List.map_cons, hterm, hterms]
      · intro q' hq'
        rcases List.mem_cons.1 hq' with rfl | hq'
        · exact hfits
        · exact hall q' hq'

/-- Two or more texts in parentheses are read as one junction. -/
theorem Predicate.compose_eq_ok (c : Connective) {texts : List String}
    {ps : List Predicate} (hlen : 2 ≤ texts.length) (h : texts.mapM Predicate.parse = .ok ps) :
    Predicate.parse (c.compose texts) = .ok ⟨c, ps.map Predicate.asTerm⟩ := by
  obtain ⟨qs, htexts, hterms, hfits⟩ := Predicate.exists_groups_of_parse h
  cases qs with
  | nil =>
      have hnil : texts = [] := List.map_eq_nil_iff.1 (List.map_eq_nil_iff.1 htexts.symm)
      rw [hnil] at hlen
      exact absurd hlen (by decide)
  | cons first more =>
      have hend : Level.StopsAt (.chain .any) [] := Level.stopsAt_of_afterLayout_eq_nil rfl
      have hread := parseChars_of_fits [] (Phrase.expressionOf (Joint.spaced : Joint c) first more)
        (Phrase.fits_expressionOf (List.cons_ne_nil _ _) first more hfits hend) rfl
      -- the groups joined by the connective are the text that was composed
      have hchars : (Phrase.expressionOf (Joint.spaced : Joint c) first more).text
          = (c.compose texts).toList := by
        rw [Phrase.text_expressionOf, htexts, Connective.compose, String.toList_intercalate,
          Joint.text_spaced]
      -- with one text only there would be no junction
      have htwo : (ps.map Predicate.asTerm).length ≠ 1 := by
        rw [List.length_map, length_of_mapM h]
        omega
      rw [Gap.text_nil, List.nil_append, List.append_nil, hchars, Phrase.term_expressionOf, hterms,
        Formula.gather_of_two_le c htwo] at hread
      exact hread

/-! ## §3. Rendering what was put together. -/

variable {scope : Scope}

/-- Terms that render one by one render together. -/
theorem Term.exists_rules_of_renderIn {ts : List Term} {renderings : List String}
    (h : ts.mapM (Term.renderIn scope) = .ok (renderings.map some)) :
    ∃ rules, Formula.traverseAll (Clause.resolve scope) ts = .ok rules
      ∧ Formula.renderAll rules = .ok renderings := by
  induction ts generalizing renderings with
  | nil =>
      cases renderings with
      | nil => exact ⟨[], rfl, rfl⟩
      | cons rendering renderings => cases h
  | cons t ts ih =>
      obtain ⟨o, rest, ht, hts, heq⟩ := mapM_cons_eq_ok.1 h
      cases renderings with
      | nil => cases heq
      | cons rendering renderings =>
          obtain ⟨rfl, rfl⟩ := List.cons.inj heq
          obtain ⟨rule, hrule, hrender⟩ := Term.renderIn_eq_ok_some.1 ht
          obtain ⟨rules, hrules, hrenders⟩ := ih hts
          refine ⟨rule :: rules, ?_, ?_⟩
          · exact Formula.traverseAll_cons_eq_ok.2 ⟨_, _, hrule, hrules, rfl⟩
          · exact Formula.renderAll_cons_eq_ok.2 ⟨_, _, hrender, hrenders, rfl⟩

/-- What was read renders as a term as it does on its own. -/
theorem Predicate.renderIn_asTerm {text : String} {p : Predicate}
    (hparse : Predicate.parse text = .ok p) {rendering : String}
    (h : p.renderIn scope = .ok rendering) :
    Term.renderIn scope p.asTerm = .ok (some rendering) := by
  obtain ⟨t, ht, rfl⟩ := Predicate.exists_term_of_parse hparse
  rw [Predicate.asTerm_toJunction ht]
  exact Term.renderIn_of_toJunction ht h

/-- What was put together is rendered part by part, as the texts were on their
own. -/
theorem Predicate.mapM_renderIn_asTerm {texts : List String} {ps : List Predicate}
    (hparse : texts.mapM Predicate.parse = .ok ps) {renderings : List String}
    (h : ps.mapM (Predicate.renderIn scope) = .ok renderings) :
    (ps.map Predicate.asTerm).mapM (Term.renderIn scope) = .ok (renderings.map some) := by
  induction texts generalizing ps renderings with
  | nil =>
      cases hparse
      cases h
      rfl
  | cons text texts ih =>
      obtain ⟨p, ps, hp, hps, rfl⟩ := mapM_cons_eq_ok.1 hparse
      obtain ⟨rendering, rest, hrendering, hrest, rfl⟩ := mapM_cons_eq_ok.1 h
      exact mapM_cons_eq_ok.2 ⟨_, _, Predicate.renderIn_asTerm hp hrendering, ih hps hrest, rfl⟩

/-- **Texts of predicates compose**, by either connective and whatever layout and
comments are in them: two or more, each in parentheses, are read as the junction
of what they are read as on their own. Where all of them render, the whole
renders to their renderings, joined in one pair of parentheses. -/
theorem Predicate.parse_compose (c : Connective) {texts : List String} {ps : List Predicate}
    (hlen : 2 ≤ texts.length) (h : texts.mapM Predicate.parse = .ok ps) :
    Predicate.parse (c.compose texts) = .ok ⟨c, ps.map Predicate.asTerm⟩
      ∧ ∀ (scope : Scope) (renderings : List String),
          ps.mapM (Predicate.renderIn scope) = .ok renderings →
          Predicate.renderIn scope ⟨c, ps.map Predicate.asTerm⟩
            = .ok ("(" ++ (" " ++ c.symbol ++ " ").intercalate renderings ++ ")") := by
  refine ⟨Predicate.compose_eq_ok c hlen h, fun scope renderings hrender => ?_⟩
  obtain ⟨rules, hrules, htexts⟩ :=
    Term.exists_rules_of_renderIn (Predicate.mapM_renderIn_asTerm h hrender)
  have htwo : 2 ≤ renderings.length := by
    rw [length_of_mapM hrender, length_of_mapM h]
    exact hlen
  have hresolve : Predicate.resolve scope ⟨c, ps.map Predicate.asTerm⟩ = .ok ⟨c, rules⟩ := by
    rw [Predicate.resolve, Junction.traverse, hrules]
    rfl
  have hrule : Rule.render ⟨c, rules⟩ = c.enclose renderings := by
    rw [Rule.render, htexts]
    rfl
  rw [Predicate.renderIn, hresolve, ← Connective.enclose_of_two_le c htwo, ← hrule]
  rfl

/-- A comment that ends its text, with a reference and a parenthesis in it, does
not reach into what follows. -/
theorem Predicate.parse_compose_commented :
    2 ≤ ["open # ($x", "$a == 1 or b"].length
      ∧ ["open # ($x", "$a == 1 or b"].mapM Predicate.parse = .ok
        [⟨.all, [.leaf (.literal "open")]⟩,
          ⟨.any, [.leaf (.condition ⟨.field (.named "a"), .equal, .literal "1"⟩),
            .leaf (.literal "b")]⟩]
      ∧ Predicate.parse "(open # ($x\n) AND ($a == 1 or b\n)" = .ok ⟨.all, [.leaf (.literal "open"),
          .node .any [.leaf (.condition ⟨.field (.named "a"), .equal, .literal "1"⟩),
            .leaf (.literal "b")]]⟩
      ∧ Predicate.renderIn ⟨"doc", none⟩ ⟨.all, [.leaf (.literal "open"),
          .node .any [.leaf (.condition ⟨.field (.named "a"), .equal, .literal "1"⟩),
            .leaf (.literal "b")]]⟩ = .ok "(open && (doc.a == 1 || b))" := by
  have hopen : Predicate.parse "open # ($x" = .ok ⟨.all, [.leaf (.literal "open")]⟩ :=
    Except.eq_ok_of_toOption (by decide +kernel)
  have hchoice : Predicate.parse "$a == 1 or b" = .ok ⟨.any,
      [.leaf (.condition ⟨.field (.named "a"), .equal, .literal "1"⟩), .leaf (.literal "b")]⟩ :=
    Except.eq_ok_of_toOption (by decide +kernel)
  have hall : ["open # ($x", "$a == 1 or b"].mapM Predicate.parse = .ok
      [⟨.all, [.leaf (.literal "open")]⟩,
        ⟨.any, [.leaf (.condition ⟨.field (.named "a"), .equal, .literal "1"⟩),
          .leaf (.literal "b")]⟩] :=
    mapM_cons_eq_ok.2 ⟨_, _, hopen, mapM_cons_eq_ok.2 ⟨_, _, hchoice, rfl, rfl⟩, rfl⟩
  have htext : Connective.all.compose ["open # ($x", "$a == 1 or b"]
      = "(open # ($x\n) AND ($a == 1 or b\n)" := by
    decide +kernel
  obtain ⟨hparse, hrender⟩ := Predicate.parse_compose .all (by decide) hall
  refine ⟨by decide, hall, htext ▸ hparse, ?_⟩
  exact (hrender ⟨"doc", none⟩ ["open", "(doc.a == 1 || b)"] rfl).trans rfl

end SecurityRules
