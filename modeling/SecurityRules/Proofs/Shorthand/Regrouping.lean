/-
  SecurityRules.Proofs.Shorthand.Regrouping
  ────────────────────────────────
  **RENDERED RULES KEEP THEIR GROUPING.**

  The text of a rule is itself an expression of the shorthand, in which no
  reference is left.  So it can be read once more, and the question is whether
  the parentheses that rendering writes, and those that it leaves out, group
  the same terms.

    * In a scope of words every operand becomes a literal
      (`Operand.isLiteral_resolve`).
    * The expression for a condition is again one clause.  Exclusion and the
      two kinds of containment are put in terms of a call, whose arguments have
      to pass between its parentheses (`Condition.exists_stands`).
    * The text of a rule has every junction of two or more parts in parentheses
      (`Formula.toList_of_render`).

  Main statement: `Predicate.parse_of_renderIn`.
-/
import SecurityRules.Proofs.Shorthand.Enclosing
import SecurityRules.Proofs.Shorthand.RoundTrip

namespace SecurityRules

open Shorthand SecurityRules.Text

/-! ## §1. Scopes of words. -/

/-- Whether the document and the owner of a scope are words, so that they stand
for one operand wherever they are put. -/
structure Scope.IsWords (scope : Scope) : Prop where
  document : isPath scope.document.toList = true
  owner : ∀ text ∈ scope.owner, isPath text.toList = true ∧ text ∉ reservedWords

/-! ## §2. Operands in a scope of words. -/

/-- A path of two or more segments is a word and has a dot in it, which no
reserved word has. -/
theorem isPath_joinPath {document name : String} (hdoc : isPath document.toList = true)
    (hname : isPath name.toList = true) :
    isPath (Text.joinPath document name).toList = true
      ∧ Text.joinPath document name ∉ reservedWords := by
  have hne : document ≠ "" := by
    intro hnil
    rw [hnil] at hdoc
    cases hdoc
  rw [Text.joinPath_of_ne hne]
  have htext : (document ++ "." ++ name).toList = document.toList ++ '.' :: name.toList := by
    rw [String.toList_append, String.toList_append, List.append_assoc]
    rfl
  refine ⟨?_, ?_⟩
  · rw [htext]
    exact isPath_append_dot hdoc hname
  · have hdot : '.' ∈ (document ++ "." ++ name).toList := by
      rw [htext]
      simp
    have hres := notMem_reservedWords hdot (by decide +kernel)
    rwa [String.ofList_toList] at hres

variable {scope : Scope}

/-- A field stands for a path that is no reserved word. -/
theorem Reference.isPath_of_resolve (hscope : scope.IsWords) {r : Reference}
    (hr : r.WellSpelled) {place : String} (h : r.resolve scope = .ok place) :
    isPath place.toList = true ∧ place ∉ reservedWords := by
  cases r with
  | this =>
      rw [Reference.resolve] at h
      split at h
      · next owner howner =>
          cases h
          exact hscope.owner _ howner
      · cases h
  | named n =>
      rw [Reference.resolve] at h
      split at h
      · cases h
      · cases h
        exact isPath_joinPath hscope.document (isPath_of_isName hr.1)

/-- The expression for a lookup is a bare word. -/
theorem Operand.isBareWord_lookup {place path : String} (hplace : isPath place.toList = true)
    (hpath : isPath path.toList = true) :
    IsBareWord ("get(" ++ place ++ ").data." ++ path).toList := by
  have hargs : callArguments ('(' :: (place.toList ++ [')'])) = .found () [] :=
    callArguments_of_passes (passes_of_wordBody (wordBody_of_isPath hplace))
  have htail : WordBody (".data.".toList ++ path.toList) :=
    WordBody.append (.of_all (by decide +kernel)) (wordBody_of_isPath hpath)
  have hbody : WordBody ("get".toList
      ++ (('(' :: (place.toList ++ [')'])) ++ (".data.".toList ++ path.toList))) :=
    WordBody.append (.of_all (by decide +kernel)) (.call hargs htail)
  have htext : ("get(" ++ place ++ ").data." ++ path).toList
      = "get".toList ++ (('(' :: (place.toList ++ [')'])) ++ (".data.".toList ++ path.toList)) := by
    simp only [String.toList_append, List.append_assoc]
    show ['g', 'e', 't', '('] ++ (place.toList ++ _) = ['g', 'e', 't'] ++ _
    simp
  rw [htext]
  refine @IsBareWord.intro [] _ (by decide) hbody (by simp) (fun _ => ?_) ?_
  · show some 'g' ≠ some '('
    decide
  refine notMem_reservedWords (c := '(') ?_ (by decide +kernel)
  simp

/-- An operand is a literal already, or it becomes a bare word. -/
theorem Operand.isBareWord_of_resolve (hscope : scope.IsWords) {o : Operand}
    (ho : o.WellSpelled) {text : String} (h : o.resolve scope = .ok text) :
    o = .literal text ∧ IsLiteral text ∨ IsBareWord text.toList := by
  rcases Operand.resolve_eq_ok.1 h with
    ⟨rfl, -⟩ | ⟨r, rfl, hr⟩ | ⟨via, path, place, rfl, -, hplace, rfl⟩
  · exact .inl ⟨rfl, ho⟩
  · -- what a field becomes is a path, and no reserved word
    obtain ⟨hpath, hres⟩ := Reference.isPath_of_resolve hscope ho hr
    refine .inr (isBareWord_of_isPath hpath ?_)
    rwa [String.ofList_toList]
  · obtain ⟨hpath, -⟩ := Reference.isPath_of_resolve hscope ho.1 hplace
    exact .inr (Operand.isBareWord_lookup hpath ho.2)

theorem Operand.isLiteral_of_resolve (hscope : scope.IsWords) {o : Operand}
    (ho : o.WellSpelled) {text : String} (h : o.resolve scope = .ok text) : IsLiteral text := by
  rcases Operand.isBareWord_of_resolve hscope ho h with ⟨-, hlit⟩ | hbare
  · exact hlit
  · exact .of_isBareWord hbare

/-! ## §3. What a clause says. -/

/-- Whether a text is that of one clause, which says this text in every
scope. -/
def Clause.Stands (c : Clause) (text : String) : Prop :=
  IsTerm text.toList (.leaf c) ∧ ∀ scope : Scope, c.resolve scope = .ok (some text)

instance : Nonempty Clause :=
  ⟨.literal ""⟩

theorem Operand.resolve_literal {text : String} (h : IsLiteral text) (scope : Scope) :
    (Operand.literal text).resolve scope = .ok text := by
  rw [Operand.resolve, h.isBlank_eq_false]
  rfl

theorem Clause.stands_literal {text : String} (h : IsLiteral text) :
    (Clause.literal text).Stands text := by
  refine ⟨isTerm_shorthand (c := .literal text) h, fun scope => ?_⟩
  exact Clause.resolve_eq_ok_some.2 (.inl ⟨rfl, h.isBlank_eq_false⟩)

/-- An operator that is put between two literals makes a condition of them. -/
theorem Clause.stands_condition {left right : String} (hl : IsLiteral left)
    (hr : IsLiteral right) {op : Operator}
    (hop : op.apply left right = left ++ " " ++ op.spelling ++ " " ++ right) :
    (Clause.condition ⟨.literal left, op, .literal right⟩).Stands (op.apply left right) := by
  refine ⟨?_, fun scope => ?_⟩
  · rw [hop]
    exact isTerm_shorthand (c := .condition ⟨.literal left, op, .literal right⟩) ⟨hl, hr⟩
  · refine Clause.resolve_eq_ok_some.2 (.inr ⟨_, rfl, Condition.resolve_eq_ok.2 ?_⟩)
    exact ⟨left, right, Operand.resolve_literal hl scope, Operand.resolve_literal hr scope, rfl⟩

/-- Whether the operands of a condition can be put where its expression puts
them. -/
structure Condition.Enclosable (c : Condition) : Prop where
  /-- A method is called of a bare word. -/
  callee : c.operator = .containsAny → ∀ text, c.left = .literal text →
    ¬(quoted text.toList = .found () [] ∨ bracketList text.toList = .found () [])
  /-- A list that comes between parentheses has its own ones nested. -/
  rounds : c.operator = .notMemberOf ∨ c.operator = .containsAny → ∀ text,
    c.left = .literal text ∨ c.right = .literal text →
    bracketList text.toList = .found () [] → roundsNested 0 none text.toList = true

theorem Operand.passes_of_resolve (hscope : scope.IsWords) {o : Operand}
    (ho : o.WellSpelled) {text : String} (h : o.resolve scope = .ok text)
    (hround : ∀ t, o = .literal t → bracketList t.toList = .found () [] →
      roundsNested 0 none t.toList = true) : Passes text.toList := by
  rcases Operand.isBareWord_of_resolve hscope ho h with ⟨hlit, hq | hl | hbare⟩ | hbare
  · exact passesBetween_of_quoted hq
  · exact passes_of_bracketList hl (hround text hlit hl)
  · exact passes_of_bareWord (.of_bareWord hbare)
  · exact passes_of_bareWord hbare

/-- Exclusion is the negation of a membership in parentheses. -/
theorem isLiteral_notMemberOf {left right : String} (hl : Passes left.toList)
    (hr : Passes right.toList) : IsLiteral (Operator.notMemberOf.apply left right) := by
  have hin : Passes " in ".toList := passes_of_plain (by decide +kernel)
  have hargs : callArguments
      ('(' :: ((left.toList ++ (" in ".toList ++ right.toList)) ++ [')'])) = .found () [] :=
    callArguments_of_passes (hl.append (hin.append hr))
  have hbody : WordBody
      (('(' :: ((left.toList ++ (" in ".toList ++ right.toList)) ++ [')'])) ++ []) :=
    .call hargs .nil
  have htext : (Operator.notMemberOf.apply left right).toList
      = ['!'] ++ (('(' :: ((left.toList ++ (" in ".toList ++ right.toList)) ++ [')'])) ++ []) := by
    show ("!(" ++ left ++ " in " ++ right ++ ")").toList = _
    simp only [String.toList_append, List.append_assoc, List.append_nil]
    rfl
  refine .of_isBareWord ?_
  rw [htext]
  refine @IsBareWord.intro ['!'] _ (by decide) hbody (by simp) (by simp) ?_
  refine notMem_reservedWords (c := '!') ?_ (by decide +kernel)
  simp

/-- Containment of some member is a call of a method. -/
theorem isLiteral_containsAny {left right : String} (hl : IsBareWord left.toList)
    (hr : Passes right.toList) : IsLiteral (Operator.containsAny.apply left right) := by
  have hargs : callArguments ('(' :: (right.toList ++ [')'])) = .found () [] :=
    callArguments_of_passes hr
  have hbody : WordBody (".hasAny".toList ++ (('(' :: (right.toList ++ [')'])) ++ [])) :=
    WordBody.append (.of_all (by decide +kernel)) (.call hargs .nil)
  have htext : (Operator.containsAny.apply left right).toList
      = left.toList ++ (".hasAny".toList ++ (('(' :: (right.toList ++ [')'])) ++ [])) := by
    show (left ++ ".hasAny(" ++ right ++ ")").toList = _
    simp only [String.toList_append, List.append_assoc, List.append_nil]
    rfl
  refine .of_isBareWord ?_
  rw [htext]
  refine hl.append hbody (notMem_reservedWords (c := '(') ?_ (by decide +kernel))
  simp

/-- **The expression for a condition is one clause**, which says the same in
every scope. -/
theorem Condition.exists_stands (hscope : scope.IsWords) {c : Condition}
    (hl : c.left.WellSpelled) (hr : c.right.WellSpelled) (hc : c.Enclosable) {text : String}
    (h : c.resolve scope = .ok text) : ∃ k : Clause, k.Stands text := by
  obtain ⟨left, right, hleft, hright, rfl⟩ := Condition.resolve_eq_ok.1 h
  have hlit := Operand.isLiteral_of_resolve hscope hl hleft
  have hlit' := Operand.isLiteral_of_resolve hscope hr hright
  obtain ⟨o, op, o'⟩ := c
  obtain ⟨hcall, hround⟩ := hc
  have hpass : op = .notMemberOf ∨ op = .containsAny →
      Passes left.toList ∧ Passes right.toList := by
    intro hop
    refine ⟨Operand.passes_of_resolve hscope hl hleft fun t ht => hround hop t (.inl ht), ?_⟩
    exact Operand.passes_of_resolve hscope hr hright fun t ht => hround hop t (.inr ht)
  cases op with
  | notMemberOf =>
      obtain ⟨hp, hp'⟩ := hpass (.inl rfl)
      exact ⟨_, Clause.stands_literal (isLiteral_notMemberOf hp hp')⟩
  | containsAny =>
      -- the left side is a bare word: quotes and lists are excluded, references become words
      obtain ⟨-, hp'⟩ := hpass (.inr rfl)
      have hbare : IsBareWord left.toList := by
        rcases Operand.isBareWord_of_resolve hscope hl hleft with ⟨ho, hq | hb | hw⟩ | hw
        · exact absurd (.inl hq) (hcall rfl left ho)
        · exact absurd (.inr hb) (hcall rfl left ho)
        · exact .of_bareWord hw
        · exact hw
      exact ⟨_, Clause.stands_literal (isLiteral_containsAny hbare hp')⟩
  | contains =>
      -- membership with its sides exchanged
      have hswap : Operator.contains.apply left right = Operator.memberOf.apply right left := by
        refine String.toList_inj.1 ?_
        simp only [Operator.apply, String.toList_append, List.append_assoc]
        rfl
      show ∃ k : Clause, k.Stands (Operator.contains.apply left right)
      rw [hswap]
      exact ⟨_, Clause.stands_condition hlit' hlit rfl⟩
  | equal | notEqual | less | lessOrEqual | greater | greaterOrEqual | memberOf | ofType =>
      exact ⟨_, Clause.stands_condition hlit hlit' rfl⟩

theorem Clause.exists_stands (hscope : scope.IsWords) {c : Clause} (hc : c.WellSpelled)
    (henc : ∀ d, c = .condition d → d.Enclosable) {text : String}
    (h : c.resolve scope = .ok (some text)) : ∃ k : Clause, k.Stands text := by
  rcases Clause.resolve_eq_ok_some.1 h with ⟨rfl, -⟩ | ⟨d, rfl, hd⟩
  · exact ⟨_, Clause.stands_literal hc⟩
  · exact Condition.exists_stands hscope hc.1 hc.2 (henc d rfl) hd

/-! ## §4. The text of a rule. -/

/-- The text of a rule has every junction in parentheses, when each has two or
more parts and no part is blank. -/
theorem Formula.toList_of_render {r : Formula String}
    (h : r.Filled (fun text => Text.isBlank text = false) 2) :
    ∀ text, render r = .ok (some text) →
      text.toList = treeText (fun _ => Joint.rendered) String.toList r := by
  induction h with
  | leaf h =>
      intro text htext
      rw [render, h] at htext
      cases htext
      rfl
  | @node c parts hlen hparts ih =>
      intro text htext
      obtain ⟨texts, hall, htext⟩ := render_node_eq_ok.1 htext
      have hkeep : ∀ part ∈ parts, render part ≠ .ok none := fun part hpart =>
        render_ne_none ((hparts part hpart).mono (fun _ hb => hb) (Nat.zero_le 2))
      have hmap := map_of_renderAll hkeep ih hall
      -- no part was dropped, so there are at least two texts to enclose
      have htwo : 2 ≤ texts.length := by
        have hcount := congrArg List.length hmap
        rw [List.length_map, List.length_map] at hcount
        omega
      rw [Connective.enclose_of_two_le c htwo] at htext
      cases htext
      rw [treeText, fold_node, String.toList_append, String.toList_append,
        String.toList_intercalate, Joint.text_rendered, hmap, List.append_assoc]
      rfl

/-! ## §5. Reading a rule. -/

/-- The clauses of a predicate, in order. -/
def Predicate.clauses (p : Predicate) : List Clause :=
  p.toFormula.leaves

/-- The connectives and the nesting of a predicate. -/
def Predicate.shape (p : Predicate) : Formula Unit :=
  p.toFormula.shape

/-- What a term becomes in a scope of words is a rule of clauses that stand for
themselves. -/
theorem Term.filled_of_traverse (hscope : scope.IsWords) {t : Term}
    (ht : t.Filled Clause.WellSpelled 2)
    (henc : ∀ d, Clause.condition d ∈ t.leaves → d.Enclosable) {rule : Formula String}
    (h : Formula.traverse (Clause.resolve scope) t = .ok (some rule)) :
    rule.Filled (fun text => ∃ k : Clause, k.Stands text) 2 ∧ rule.shape = t.shape := by
  have hkeep : ∀ c : Clause, c.WellSpelled → c.resolve scope ≠ .ok none :=
    fun c hc => Clause.resolve_ne_none (Clause.isBlank_of_wellSpelled hc)
  have hboth := ht.and_leaves (Q := fun c => ∀ d, c = .condition d → d.Enclosable)
    fun c hc d hd => henc d (hd ▸ hc)
  constructor
  · refine Formula.Filled.traverse (hboth.mono ?_ (Nat.le_refl 2)) h
    intro c hboth
    obtain ⟨hc, hd⟩ := hboth
    exact ⟨hkeep c hc, fun text htext => Clause.exists_stands hscope hc hd htext⟩
  · exact Formula.shape_traverse (ht.mono hkeep (Nat.le_refl 2)) h

/-- A rule of clauses that stand for themselves is read as a tree of these
clauses. -/
theorem parse_of_render {rule : Formula String} {k : String → Clause}
    (h : rule.Filled (fun text => (k text).Stands text) 2) {text : String}
    (htext : rule.render = .ok (some text)) :
    Predicate.parse text = .ok (rule.map k).toJunction := by
  have hblank : rule.Filled (fun text => Text.isBlank text = false) 2 :=
    h.mono (fun _ hk => Clause.isBlank_of_resolve (hk.2 ⟨"", none⟩)) (Nat.le_refl 2)
  have hmap : (rule.map k).collapse = rule.map k :=
    Formula.collapse_of_filled (P := fun _ => True)
      (Formula.Filled.map (h.mono (fun _ _ => trivial) (Nat.le_refl 2)))
  have hterm := isTerm_treeText (fun _ => Joint.rendered)
    (fun c => ⟨List.cons_ne_nil _ _, List.cons_ne_nil _ _⟩) String.toList k
    (h.mono (fun _ hk => hk.1) (Nat.le_succ 1))
  rw [← Formula.toList_of_render hblank text htext, hmap] at hterm
  exact parse_of_isTerm hterm

/-- **Rendering keeps the grouping.** What a predicate that was read becomes in
a scope of words is read again, with the same connectives and the same nesting.
In every scope the result stands for the rule that was rendered, and renders to
the same text. -/
theorem Predicate.parse_of_renderIn {text : String} {p : Predicate}
    (hparse : Predicate.parse text = .ok p) {scope : Scope} (hscope : scope.IsWords)
    (henc : ∀ c, Clause.condition c ∈ p.clauses → c.Enclosable) {rendered : String}
    (hrender : p.renderIn scope = .ok rendered) :
    ∃ q : Predicate, Predicate.parse rendered = .ok q ∧ q.shape = p.shape
      ∧ ∀ scope' : Scope, q.resolve scope' = p.resolve scope
        ∧ q.renderIn scope' = .ok rendered := by
  obtain ⟨t, ht, rfl⟩ := Predicate.exists_term_of_parse hparse
  obtain ⟨rule, hrule, htext⟩ :=
    Term.renderIn_eq_ok_some.1 (Term.renderIn_of_toJunction ht hrender)
  have hleaves : ∀ d, Clause.condition d ∈ t.leaves → d.Enclosable := by
    intro d hd
    refine henc d ?_
    rw [Predicate.clauses, Formula.leaves_toJunction]
    exact hd
  -- every leaf of the rule is a clause of its own; take these clauses for the leaves
  obtain ⟨hfilled, hshape⟩ := Term.filled_of_traverse hscope ht hleaves hrule
  obtain ⟨k, hk⟩ := hfilled.exists_choice
  refine ⟨(rule.map k).toJunction, parse_of_render hk htext, ?_, fun scope' => ?_⟩
  · rw [Predicate.shape, Predicate.shape, Formula.shape_toJunction, Formula.shape_toJunction,
      Formula.shape_map, hshape]
  · have hagain : Formula.traverse (Clause.resolve scope') (rule.map k) = .ok (some rule) :=
      Formula.traverse_map (hk.mono (fun _ hs => hs.2 scope') (Nat.le_refl 2))
    have hsame : Predicate.resolve scope' (rule.map k).toJunction
        = Predicate.resolve scope t.toJunction :=
      (Junction.traverse_toJunction hagain).trans (Junction.traverse_toJunction hrule).symm
    refine ⟨hsame, ?_⟩
    rw [Predicate.renderIn, hsame]
    exact hrender

/-- Membership by exclusion or by a tag, and that the document is open. -/
def Predicate.taggedAndOpen : Predicate :=
  ⟨.all, [.node .any
      [.leaf (.condition ⟨.lookup (.named "team") "lead", .notMemberOf, .literal "[f(x), ')']"⟩),
       .leaf (.condition ⟨.field (.named "tags"), .containsAny, .field .this⟩)],
    .leaf (.literal "open")]⟩

theorem Predicate.parse_taggedAndOpen :
    Predicate.parse "(@team.lead not-in [f(x), ')'] or $tags array-contains-any $this) and open"
        = .ok taggedAndOpen
      ∧ taggedAndOpen.renderIn ⟨"doc", some "auth.uid"⟩
        = .ok "((!(get(doc.team).data.lead in [f(x), ')']) || doc.tags.hasAny(auth.uid)) && open)"
      ∧ ∃ q : Predicate, Predicate.parse
            "((!(get(doc.team).data.lead in [f(x), ')']) || doc.tags.hasAny(auth.uid)) && open)"
          = .ok q
        ∧ q.shape = .node .all [.node .any [.leaf (), .leaf ()], .leaf ()]
        ∧ ∀ scope : Scope, q.resolve scope = taggedAndOpen.resolve ⟨"doc", some "auth.uid"⟩
          ∧ q.renderIn scope = .ok
            "((!(get(doc.team).data.lead in [f(x), ')']) || doc.tags.hasAny(auth.uid)) && open)" := by
  have hparse : Predicate.parse
      "(@team.lead not-in [f(x), ')'] or $tags array-contains-any $this) and open"
      = .ok taggedAndOpen :=
    Except.eq_ok_of_toOption (by decide +kernel)
  have hrender : taggedAndOpen.renderIn ⟨"doc", some "auth.uid"⟩
      = .ok "((!(get(doc.team).data.lead in [f(x), ')']) || doc.tags.hasAny(auth.uid)) && open)" :=
    rfl
  have hscope : Scope.IsWords ⟨"doc", some "auth.uid"⟩ := by
    refine ⟨by decide +kernel, fun text htext => ?_⟩
    cases htext
    decide +kernel
  have henc : ∀ c, Clause.condition c ∈ taggedAndOpen.clauses → c.Enclosable := by
    intro c hc
    have hcases : c = ⟨.lookup (.named "team") "lead", .notMemberOf, .literal "[f(x), ')']"⟩
        ∨ c = ⟨.field (.named "tags"), .containsAny, .field .this⟩ := by
      simpa [clauses, taggedAndOpen, Junction.toFormula, Formula.leaves] using hc
    rcases hcases with rfl | rfl
    · refine ⟨fun hop => ?_, fun _ text htext _ => ?_⟩
      · cases hop
      · rcases htext with htext | htext
        · cases htext
        · cases htext
          decide +kernel
    · refine ⟨fun _ text htext => ?_, fun _ text htext => ?_⟩
      · cases htext
      · rcases htext with htext | htext <;> cases htext
  obtain ⟨q, hq, hshape, hsame⟩ := Predicate.parse_of_renderIn hparse hscope henc hrender
  exact ⟨hparse, hrender, q, hq, hshape.trans rfl, hsame⟩

end SecurityRules
