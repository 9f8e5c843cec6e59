/-
  SecurityRules.Proofs.Shorthand.Tokens
  ────────────────────────────────
  **THE TOKENS OF A TEXT.**

  A text is split into tokens when it is these tokens with layout between and
  around them.  The parentheses of groups and the spelling of a connective say
  nothing by themselves; what remains is the content of a token sequence.

    * `Term.tokens` are the tokens of the shorthand of a term
      (`Predicate.splits_shorthand`);
    * the tokens of a phrase have the content of the term that it means
      (`Phrase.content_tokens`) and balanced parentheses
      (`Phrase.balancedFrom_tokens`).

  Main statement: reading a text loses, adds and reorders nothing
  (`Predicate.exists_tokens_of_parse`).
-/
import SecurityRules.Proofs.Formula.Fold
import SecurityRules.Proofs.Result
import SecurityRules.Proofs.Shorthand.Soundness

namespace SecurityRules.Shorthand

/-! ## §1. Tokens. -/

/-- A token of the shorthand. -/
inductive Token where
  | opening
  | closing
  | connective (c : Connective) (spelling : Spelling)
  | operator (op : Operator)
  | operand (o : Operand)
  deriving DecidableEq

namespace Token

def text : Token → List Char
  | opening => ['(']
  | closing => [')']
  | connective c spelling => (spelling.text c).toList
  | operator op => op.spelling.toList
  | operand o => o.shorthand.toList

/-- What a token says: nothing if it is a parenthesis, and otherwise itself,
with the spelling of a connective forgotten. -/
def content? : Token → Option Token
  | opening => none
  | closing => none
  | connective c _ => some (connective c .upper)
  | operator op => some (operator op)
  | operand o => some (operand o)

/-- What the tokens of a sequence say, in order. -/
def content (ts : List Token) : List Token :=
  ts.filterMap content?

theorem content_append (ts us : List Token) : content (ts ++ us) = content ts ++ content us :=
  List.filterMap_append

/-- What joined tokens say is what the parts say, joined. -/
theorem content_intercalate (sep : List Token) (parts : List (List Token)) :
    content (sep.intercalate parts) = (content sep).intercalate (parts.map content) := by
  induction parts with
  | nil => rfl
  | cons part parts ih =>
      cases parts with
      | nil => simp
      | cons next parts =>
          rw [List.intercalate_cons_cons, content_append, content_append, ih, List.map_cons,
            List.map_cons, List.map_cons, List.intercalate_cons_cons]

/-- Whether the parentheses of a sequence are balanced, where `depth` of them
are open in front of it. -/
def balancedFrom : (depth : Nat) → List Token → Bool
  | depth, [] => depth == 0
  | depth, opening :: ts => balancedFrom (depth + 1) ts
  | 0, closing :: _ => false
  | depth + 1, closing :: ts => balancedFrom depth ts
  | depth, _ :: ts => balancedFrom depth ts

/-- Whether the parentheses of a sequence are balanced. -/
def balanced : List Token → Bool :=
  balancedFrom 0

end Token

/-! ## §2. Texts split into tokens. -/

/-- Whether a text is nothing but layout. A last comment may lack its line
end. -/
def IsLayout (s : List Char) : Prop :=
  ∃ (g : Gap) (tail : List Char), s = Gap.text g ++ tail ∧ (tail = [] ∨ IsLastComment tail)

/-- Whether a text is a sequence of tokens with layout between and around
them. -/
inductive Splits : List Char → List Token → Prop where
  | done {s : List Char} (h : IsLayout s) : Splits s []
  | token (g : Gap) (t : Token) {s : List Char} {ts : List Token} (h : Splits s ts) :
      Splits (Gap.text g ++ (t.text ++ s)) (t :: ts)

theorem isLayout_of_afterLayout_eq_nil {s : List Char} (h : afterLayout s = []) : IsLayout s := by
  obtain ⟨g, tail, hs, htail⟩ := exists_gap_and_tail s
  rw [h, List.append_nil] at hs
  refine ⟨g, tail, hs, ?_⟩
  rcases htail with hnil | ⟨-, hlast⟩
  · exact .inl hnil
  · exact .inr hlast

/-- Layout in front of a text does not change its tokens. -/
theorem Splits.gap (g : Gap) {s : List Char} {ts : List Token} (h : Splits s ts) :
    Splits (Gap.text g ++ s) ts := by
  cases h with
  | done h =>
      obtain ⟨g', tail, rfl, htail⟩ := h
      refine .done ⟨g ++ g', tail, ?_, htail⟩
      rw [Gap.text_append, List.append_assoc]
  | token g' t h =>
      rw [← List.append_assoc, ← Gap.text_append]
      exact .token (g ++ g') t h

end SecurityRules.Shorthand

namespace SecurityRules

open Shorthand

/-! ## §3. The tokens of a term. -/

def Clause.tokens : Clause → List Token
  | .literal text => [.operand (.literal text)]
  | .condition c => [.operand c.left, .operator c.operator, .operand c.right]

/-- Token sequences joined by a connective, in parentheses. -/
def Connective.groupTokens (c : Connective) (parts : List (List Token)) : List Token :=
  .opening :: ([Token.connective c .upper].intercalate parts ++ [.closing])

/-- The tokens of the shorthand of a term. -/
def Term.tokens : Term → List Token :=
  Formula.fold Clause.tokens Connective.groupTokens

/-- The tokens of the shorthand of a predicate. -/
def Predicate.tokens (p : Predicate) : List Token :=
  Term.tokens p.toFormula

theorem Term.tokens_node (c : Connective) (terms : List Term) :
    Term.tokens (.node c terms) = c.groupTokens (terms.map Term.tokens) :=
  Formula.fold_node _ _ c terms

/-- The printed text of a clause splits into its tokens. -/
theorem Clause.splits_shorthand (c : Clause) {s : List Char} {ts : List Token}
    (h : Splits s ts) : Splits (c.shorthand.toList ++ s) (c.tokens ++ ts) := by
  cases c with
  | literal text => exact .token [] (.operand (.literal text)) h
  | condition c =>
      show Splits (c.shorthand.toList ++ s) _
      rw [Condition.toList_shorthand]
      simp only [List.append_assoc]
      exact .token [] (.operand c.left)
        (.token Gap.space (.operator c.operator) (.token Gap.space (.operand c.right) h))

/-- The terms of a junction in the shorthand, with the connective between. -/
theorem splits_intercalate (c : Connective) {terms : List Term}
    (hterms : ∀ t ∈ terms, ∀ {s : List Char} {ts : List Token}, Splits s ts →
      Splits ((Term.shorthand t).toList ++ s) (Term.tokens t ++ ts))
    {s : List Char} {ts : List Token} (h : Splits s ts) :
    Splits (((" " ++ c.keyword ++ " ").intercalate (terms.map Term.shorthand)).toList ++ s)
      ([Token.connective c .upper].intercalate (terms.map Term.tokens) ++ ts) := by
  induction terms with
  | nil => exact h
  | cons t terms ih =>
      have hrest := ih fun u hu => hterms u (List.mem_cons_of_mem _ hu)
      cases terms with
      | nil =>
          simp only [List.map_cons, List.map_nil, String.intercalate_singleton,
            List.intercalate_singleton]
          exact hterms t List.mem_cons_self h
      | cons u terms =>
          simp only [List.map_cons, String.intercalate_cons_cons, List.intercalate_cons_cons,
            String.toList_append, List.append_assoc] at hrest ⊢
          -- the first connective, with a space on either side, and the terms behind it
          have hjoint : Splits ((" ".toList ++ (c.keyword.toList ++ (" ".toList
              ++ (((" " ++ (c.keyword ++ " ")).intercalate
                (Term.shorthand u :: terms.map Term.shorthand)).toList ++ s)))))
              (Token.connective c .upper :: ([Token.connective c .upper].intercalate
                (Term.tokens u :: terms.map Term.tokens) ++ ts)) :=
            .token Gap.space (.connective c .upper) (hrest.gap Gap.space)
          exact hterms t List.mem_cons_self hjoint

/-- The printed text of a term splits into its tokens, by induction on the term.
-/
theorem Term.splits_shorthand (t : Term) {s : List Char} {ts : List Token} (h : Splits s ts) :
    Splits ((Term.shorthand t).toList ++ s) (Term.tokens t ++ ts) := by
  induction t using Formula.induct generalizing s ts with
  | leaf c => exact c.splits_shorthand h
  | node c terms ih =>
      have hclose : Splits (')' :: s) (.closing :: ts) := .token [] .closing h
      have hparts := splits_intercalate c (fun u hu _ _ hs => ih u hu hs) hclose
      rw [Term.shorthand, Term.shorthandAll_eq_map, Term.tokens_node, Connective.group,
        Connective.groupTokens, String.toList_append, String.toList_append, List.append_assoc,
        List.append_assoc, List.cons_append, List.append_assoc]
      exact .token [] .opening hparts

/-- The shorthand of a predicate is its tokens. -/
theorem Predicate.splits_shorthand (p : Predicate) : Splits p.shorthand.toList p.tokens := by
  have hend : IsLayout [] := ⟨[], [], rfl, .inl rfl⟩
  have h := Term.splits_shorthand p.toFormula (.done hend)
  rw [List.append_nil, List.append_nil] at h
  exact h

/-! ## §4. What the tokens of a term say. -/

/-- Parentheses say nothing. -/
theorem Connective.content_groupTokens (c : Connective) (parts : List (List Token)) :
    Token.content (c.groupTokens parts)
      = [Token.connective c .upper].intercalate (parts.map Token.content) := by
  show Token.content ([Token.connective c .upper].intercalate parts ++ [.closing]) = _
  rw [Token.content_append, Token.content_intercalate]
  show _ ++ [] = _
  rw [List.append_nil]
  rfl

/-- A junction says what its terms say, one after another. -/
theorem Term.content_gather (c : Connective) {terms : List Term} (hne : terms ≠ []) :
    Token.content (Term.tokens (c.gather terms))
      = [Token.connective c .upper].intercalate
          (terms.map fun t => Token.content (Term.tokens t)) := by
  match terms with
  | [] => exact absurd rfl hne
  | [t] => simp [Connective.gather]
  | t :: u :: terms =>
      show Token.content (Term.tokens (.node c (t :: u :: terms))) = _
      rw [Term.tokens_node, Connective.content_groupTokens, List.map_map]
      rfl

namespace Shorthand.Phrase

/-! ## §5. The tokens of a phrase. -/

/-- The tokens of a phrase, in order. -/
def tokens : {l : Level} → Phrase l → List Token
  | _, literal text _ => [.operand (.literal text)]
  | _, condition c _ _ _ _ => [.operand c.left, .operator c.operator, .operand c.right]
  | _, group _ inner _ => .opening :: (inner.tokens ++ [.closing])
  | _, single member => member.tokens
  | .chain c, joined member joint more =>
      member.tokens ++ (.connective c joint.spelling :: more.tokens)

/-- The text of a phrase splits into its tokens, with the gap in front of it
left out. -/
theorem splits {l : Level} (p : Phrase l) (g : Gap) {s : List Char} {ts : List Token}
    (h : Splits s ts) : Splits (Gap.text g ++ (p.text ++ s)) (p.tokens ++ ts) := by
  induction p generalizing g s ts with
  | literal text ht => exact .token g (.operand (.literal text)) h
  | condition c hl hr before after =>
      rw [Phrase.text]
      simp only [List.append_assoc]
      exact .token g (.operand c.left)
        (.token before (.operator c.operator) (.token after (.operand c.right) h))
  | group before inner after ih =>
      have hclose := Splits.token after .closing h
      rw [Phrase.text, tokens]
      simp only [List.cons_append, List.append_assoc, List.nil_append]
      exact .token g .opening (ih before hclose)
  | single member ih => exact ih g h
  | @joined c member joint more ih ihm =>
      have hmore := Splits.token joint.before (.connective c joint.spelling) (ihm joint.after h)
      rw [Phrase.text, tokens, Joint.text]
      simp only [List.append_assoc]
      exact ih g hmore

/-- The parentheses of a phrase are balanced, also within a longer sequence. -/
theorem balancedFrom_tokens {l : Level} (p : Phrase l) (depth : Nat) (ts : List Token) :
    Token.balancedFrom depth (p.tokens ++ ts) = Token.balancedFrom depth ts := by
  induction p generalizing depth ts with
  | literal text h => cases depth <;> rfl
  | condition c hl hr before after => cases depth <;> rfl
  | group before inner after ih =>
      rw [tokens, List.cons_append, List.append_assoc, Token.balancedFrom, ih]
      rfl
  | single member ih => exact ih depth ts
  | @joined c member joint more ih ihm =>
      rw [tokens, List.append_assoc, ih, List.cons_append]
      have hskip : Token.balancedFrom depth
          (.connective c joint.spelling :: (more.tokens ++ ts))
          = Token.balancedFrom depth (more.tokens ++ ts) := by
        cases depth <;> rfl
      rw [hskip, ihm]

/-- Every operand among the tokens of a phrase is spelled as an operand. -/
theorem wellSpelled_of_mem_tokens {l : Level} (p : Phrase l) {o : Operand}
    (h : Token.operand o ∈ p.tokens) : o.WellSpelled := by
  induction p with
  | literal text ht =>
      obtain rfl : o = .literal text := by simpa [tokens] using h
      exact ht
  | condition c hl hr before after =>
      have ho : o = c.left ∨ o = c.right := by simpa [tokens] using h
      rcases ho with rfl | rfl
      · exact hl
      · exact hr
  | group before inner after ih => exact ih (by simpa [tokens] using h)
  | single member ih => exact ih h
  | joined member joint more ih ihm =>
      have ho : Token.operand o ∈ member.tokens ∨ Token.operand o ∈ more.tokens := by
        simpa [tokens] using h
      rcases ho with ho | ho
      · exact ih ho
      · exact ihm ho

/-- **The tokens of a phrase say what the term that it means says.** -/
theorem content_tokens {l : Level} (p : Phrase l) :
    Token.content p.tokens = Token.content (Term.tokens p.term) := by
  induction p with
  | literal text h => rfl
  | condition c hl hr before after => rfl
  | group before inner after ih =>
      show Token.content (inner.tokens ++ [.closing]) = Token.content (Term.tokens inner.term)
      rw [Token.content_append, ih]
      exact List.append_nil _
  | single member ih => exact ih
  | @joined c member joint more ih ihm =>
      -- a chain says what its first member says, the connective, and what the rest says;
      -- so does the junction of all members
      have hne : more.members.map (fun t => Token.content (Term.tokens t)) ≠ [] := by
        intro hnil
        exact more.members_ne_nil (List.map_eq_nil_iff.1 hnil)
      have hleft : Token.content (joined member joint more).tokens
          = Token.content member.tokens
            ++ (Token.connective c .upper :: Token.content more.tokens) :=
        Token.content_append _ _
      rw [hleft, ih, ihm, more.term_eq_gather, (joined member joint more).term_eq_gather,
        Term.content_gather c more.members_ne_nil, Term.content_gather c (members_ne_nil _),
        members, List.map_cons, List.intercalate_cons_of_ne_nil hne, List.append_assoc]
      rfl

end Shorthand.Phrase

/-! ## §6. Reading loses nothing. -/

/-- **Reading loses, adds and reorders nothing.** A text that is read splits
into tokens with balanced parentheses, in which every operand stands as the
shorthand spells it, and which say just what the shorthand of the predicate
says. -/
theorem Predicate.exists_tokens_of_parse {text : String} {p : Predicate}
    (h : Predicate.parse text = .ok p) :
    ∃ ts : List Token, Splits text.toList ts ∧ Token.balanced ts = true
      ∧ (∀ o : Operand, .operand o ∈ ts → o.WellSpelled)
      ∧ Token.content ts = Token.content p.tokens ∧ Splits p.shorthand.toList p.tokens := by
  obtain ⟨lead, e, trail, htext, -, hend, hp⟩ := Predicate.parse_eq_ok_iff.1 h
  refine ⟨e.tokens, ?_, ?_, fun o ho => e.wellSpelled_of_mem_tokens ho, ?_, p.splits_shorthand⟩
  · have hsplits := e.splits lead (.done (isLayout_of_afterLayout_eq_nil hend))
    rw [List.append_nil] at hsplits
    rw [htext]
    exact hsplits
  · have hbalanced := e.balancedFrom_tokens 0 []
    rw [List.append_nil] at hbalanced
    exact hbalanced
  · rw [e.content_tokens, ← hp]
    cases e.term with
    | leaf c => simp [Formula.toJunction, Predicate.tokens, Junction.toFormula,
        Term.tokens_node, Connective.content_groupTokens]
    | node c terms => rfl

theorem Predicate.exists_tokens_of_parse_group :
    Predicate.parse "(a or $b == 1)&&c # last"
        = .ok ⟨.all, [.node .any [.leaf (.literal "a"),
            .leaf (.condition ⟨.field (.named "b"), .equal, .literal "1"⟩)], .leaf (.literal "c")]⟩
      ∧ ∃ ts : List Token, Splits "(a or $b == 1)&&c # last".toList ts
        ∧ Token.balanced ts = true ∧ (∀ o : Operand, .operand o ∈ ts → o.WellSpelled)
        ∧ Token.content ts
          = [.operand (.literal "a"), .connective .any .upper, .operand (.field (.named "b")),
              .operator .equal, .operand (.literal "1"), .connective .all .upper,
              .operand (.literal "c")] := by
  have hparse : Predicate.parse "(a or $b == 1)&&c # last"
      = .ok ⟨.all, [.node .any [.leaf (.literal "a"),
          .leaf (.condition ⟨.field (.named "b"), .equal, .literal "1"⟩)],
          .leaf (.literal "c")]⟩ :=
    Except.eq_ok_of_toOption (by decide +kernel)
  obtain ⟨ts, hsplits, hbalanced, hspelled, hcontent, -⟩ := Predicate.exists_tokens_of_parse hparse
  exact ⟨hparse, ts, hsplits, hbalanced, hspelled, hcontent⟩

end SecurityRules
