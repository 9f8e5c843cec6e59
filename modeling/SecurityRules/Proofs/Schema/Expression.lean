/-
  SecurityRules.Proofs.Schema.Expression
  ────────────────────────────────
  **THE EXPRESSIONS IN A SCHEMA'S RULE.**

  The leaves of the rule of a schema are put together from paths, keys and
  values.  Each of them has to be read as one clause, and has to fit between
  parentheses, since the check of a list's elements is the argument of a call
  (`IsExpression`).

    * guards over the keys of a document (`isExpression_keysCall`);
    * tests of a value (`isExpression_test`);
    * the quantifier over the elements of a list, whose check is the text of a
      whole rule (`isExpression_forEachElement`).
-/
import SecurityRules.Schema.Rules
import SecurityRules.Proofs.Formula.Rendering
import SecurityRules.Proofs.Shorthand.JsonText
import SecurityRules.Proofs.Shorthand.Regrouping

namespace SecurityRules

open Shorthand SecurityRules.Text

/-! ## §1. Expressions and places. -/

/-- Whether a text is one clause, which says this text in every scope, and fits
between parentheses. -/
structure IsExpression (text : String) : Prop where
  stands : ∃ k : Clause, k.Stands text
  passes : Passes text.toList

/-- An expression is not blank, so it is never left out of a rule. -/
theorem IsExpression.isBlank_eq_false {text : String} (h : IsExpression text) :
    Text.isBlank text = false := by
  obtain ⟨k, hk⟩ := h.stands
  exact Clause.isBlank_of_resolve (hk.2 ⟨"", none⟩)

theorem isExpression_of_isBareWord {text : String} (h : IsBareWord text.toList) :
    IsExpression text :=
  ⟨⟨_, Clause.stands_literal (.of_isBareWord h)⟩, passes_of_bareWord h⟩

/-- Connectives and parentheses are themselves nested. -/
theorem Shorthand.joins_passes : Joins Passes where
  append hs ht := hs.append ht
  symbol c := passes_of_plain (by cases c <;> decide +kernel)
  group hs := passes_of_callArguments (callArguments_of_passes hs)

/-- Whether a text names a value: a path that the shorthand reads as a
literal. -/
structure IsPlace (text : String) : Prop where
  path : isPath text.toList = true
  unreserved : text ∉ reservedWords

theorem IsPlace.isBareWord {text : String} (h : IsPlace text) : IsBareWord text.toList :=
  isBareWord_of_isPath h.path (by rw [String.ofList_toList]; exact h.unreserved)

/-- A field below a document stands at a place. -/
theorem isPlace_joinPath {document name : String} (hdoc : isPath document.toList = true)
    (hname : isPath name.toList = true) : IsPlace (Text.joinPath document name) := by
  obtain ⟨hpath, hres⟩ := isPath_joinPath hdoc hname
  exact ⟨hpath, hres⟩

/-- Behind its ident, the name of an element has an underscore, which no
reserved word has. -/
theorem isPlace_item {front : List Char} (h : front.all isNameChar = true) :
    IsPlace (String.ofList front ++ "_item") := by
  have htext : (String.ofList front ++ "_item").toList = front ++ "_item".toList := by
    rw [String.toList_append, String.toList_ofList]
  constructor
  · have hword : (front ++ "_item".toList).all isWordChar = true := by
      rw [List.all_append]
      refine Bool.and_eq_true_iff.2 ⟨List.all_eq_true.2 fun c hc => ?_, by decide +kernel⟩
      exact isWordChar_of_isNameChar (List.all_eq_true.1 h c hc)
    rw [htext]
    obtain ⟨c, t, heq⟩ := List.exists_cons_of_ne_nil
      (List.append_ne_nil_of_right_ne_nil front (by decide +kernel : "_item".toList ≠ []))
    rw [heq] at hword ⊢
    exact hword
  · have hunder : '_' ∈ (String.ofList front ++ "_item").toList := by
      rw [htext]
      exact List.mem_append_right front (by decide +kernel)
    have hres := notMem_reservedWords hunder (by decide +kernel)
    rwa [String.ofList_toList] at hres

/-- The name of an element names it, whatever the path of the list is. -/
theorem isPlace_elementName (list : String) : IsPlace (elementName list) := by
  have hident : ((Text.lastSegment list.toList).filter Text.isNameChar).all isNameChar = true :=
    List.all_eq_true.2 fun c hc => (List.mem_filter.1 hc).2
  unfold elementName
  generalize (Text.lastSegment list.toList).filter Text.isNameChar = ident at hident
  cases ident with
  | nil => exact ⟨by decide +kernel, by decide +kernel⟩
  | cons c ident =>
      show IsPlace (if c.isDigit then _ else _)
      split
      · -- the letter in front is part of the ident
        have hfront : ("f" ++ String.ofList (c :: ident)) = String.ofList ('f' :: c :: ident) := by
          refine String.toList_inj.1 ?_
          simp only [String.toList_append, String.toList_ofList]
          rfl
        rw [hfront]
        refine isPlace_item ?_
        rw [List.all_cons, hident]
        decide
      · exact isPlace_item hident

/-! ## §2. Calls. -/

/-- A word with arguments behind it is a body, provided that brackets and quotes
are closed in the arguments. -/
theorem Shorthand.WordBody.call_of_passes {word arguments : List Char} (hw : WordBody word)
    (ha : Passes arguments) : WordBody (word ++ '(' :: (arguments ++ [')'])) := by
  have hcall : WordBody (('(' :: (arguments ++ [')'])) ++ []) :=
    .call (callArguments_of_passes ha) .nil
  rw [List.append_nil] at hcall
  exact hw.append hcall

/-- A path with a call behind it is a bare word, also behind signs. -/
theorem isBareWord_of_call {sign path body : List Char} (hsign : sign ∈ signs)
    (hpath : isPath path = true) (hbody : WordBody body) (hcall : '(' ∈ body) :
    IsBareWord (sign ++ (path ++ body)) := by
  obtain ⟨hall, hne⟩ := all_of_isPath hpath
  refine .intro hsign ((wordBody_of_isPath hpath).append hbody) (by simp [hne]) ?_ ?_
  · -- the first character is one of the path
    intro _ hhead
    obtain ⟨c, t, rfl⟩ := List.exists_cons_of_ne_nil hne
    obtain rfl : c = '(' := Option.some.inj hhead
    exact absurd hall (by simp [isWordChar, isNameChar])
  · have hmem : '(' ∈ sign ++ (path ++ body) :=
      List.mem_append_right _ (List.mem_append_right _ hcall)
    exact notMem_reservedWords hmem (by decide +kernel)

/-- A method of the keys of a document, called with a list of strings, also
behind signs. -/
theorem isExpression_keysCall {document receiver : String} (hdoc : isPath document.toList = true)
    {sign : List Char} (hsign : sign ∈ signs)
    (hreceiver : receiver.toList = sign ++ (keysOf document).toList)
    {method call : String} (hmethod : method.toList.all isWordChar = true)
    (hcall : call = method ++ "(") (names : List String) :
    IsExpression (receiver ++ call ++ jsonStrings names ++ ")") := by
  have hne : document ≠ "" := by
    intro hnil
    rw [hnil] at hdoc
    cases hdoc
  have hkeys : (keysOf document).toList
      = document.toList ++ (".keys".toList ++ '(' :: ([] ++ [')'])) := by
    unfold keysOf
    rw [Text.joinPath_of_ne hne, String.toList_append, String.toList_append, List.append_assoc]
    rfl
  -- two calls in a row: the keys, and the method on them
  have hfirst : WordBody (".keys".toList ++ '(' :: ([] ++ [')'])) :=
    .call_of_passes (.of_all (by decide +kernel)) (passes_of_plain rfl)
  have hsecond : WordBody (method.toList ++ '(' :: ((jsonStrings names).toList ++ [')'])) :=
    .call_of_passes (.of_all hmethod) (passes_jsonStrings names)
  have htext : (receiver ++ call ++ jsonStrings names ++ ")").toList
      = sign ++ (document.toList ++ ((".keys".toList ++ '(' :: ([] ++ [')']))
        ++ (method.toList ++ '(' :: ((jsonStrings names).toList ++ [')'])))) := by
    have hopen : "(".toList = ['('] := rfl
    have hclose : ")".toList = [')'] := rfl
    simp only [hcall, String.toList_append, hreceiver, hkeys, hopen, hclose, List.append_assoc,
      List.nil_append, List.cons_append]
  refine isExpression_of_isBareWord ?_
  rw [htext]
  exact isBareWord_of_call hsign hdoc (hfirst.append hsecond) (by simp)

/-- The check of every element of a list. -/
theorem isExpression_forEachElement {list binding check : String} (hlist : IsPlace list)
    (hbinding : IsPlace binding) (hcheck : Passes check.toList) :
    IsExpression (forEachElement list binding check) := by
  have hcomma : Passes ", ".toList := passes_of_plain (by decide +kernel)
  have harguments : Passes (binding.toList ++ (", ".toList ++ check.toList)) :=
    (passes_of_wordBody (wordBody_of_isPath hbinding.path)).append (hcomma.append hcheck)
  have hall : WordBody (".all".toList
      ++ '(' :: ((binding.toList ++ (", ".toList ++ check.toList)) ++ [')'])) :=
    .call_of_passes (.of_all (by decide +kernel)) harguments
  have htext : (forEachElement list binding check).toList = [] ++ (list.toList ++ (".all".toList
      ++ '(' :: ((binding.toList ++ (", ".toList ++ check.toList)) ++ [')']))) := by
    unfold forEachElement
    simp only [String.toList_append, List.append_assoc, List.nil_append]
    rfl
  refine isExpression_of_isBareWord ?_
  rw [htext]
  exact isBareWord_of_call (by decide) hlist.path hall (by simp)

/-! ## §3. Tests. -/

/-- Whether a text is a literal that fits between parentheses. -/
structure IsOperand (text : String) : Prop where
  literal : IsLiteral text
  passes : Passes text.toList

theorem IsPlace.isOperand {text : String} (h : IsPlace text) : IsOperand text :=
  ⟨.of_isBareWord h.isBareWord, passes_of_bareWord h.isBareWord⟩

/-- A list of values can stand in a comparison, whatever is in its texts. -/
theorem isOperand_jsonList (values : List Value) : IsOperand (Value.jsonList values) := by
  obtain ⟨hliteral, hpasses⟩ := isLiteral_jsonList values
  exact ⟨hliteral, hpasses⟩

/-- Two operands with an operator between them. -/
theorem isExpression_test {left right : String} (hl : IsOperand left) (hr : IsOperand right)
    {op : Operator} (hop : op.apply left right = left ++ " " ++ op.spelling ++ " " ++ right) :
    IsExpression (op.apply left right) := by
  refine ⟨⟨_, Clause.stands_condition hl.literal hr.literal hop⟩, ?_⟩
  have hspace : Passes " ".toList := passes_of_plain (by decide +kernel)
  have hword : Passes op.spelling.toList := passes_of_plain (by cases op <;> decide +kernel)
  rw [hop]
  simp only [String.toList_append]
  exact (((hl.passes.append hspace).append hword).append hspace).append hr.passes

theorem isPlace_typeName {kind : Kind} {typeName : String} (h : kind.typeName? = some typeName) :
    IsPlace typeName := by
  cases kind <;> first | (cases h; exact ⟨by decide +kernel, by decide +kernel⟩) | cases h

/-- What a shape tests of a value are expressions. -/
theorem Shape.filled_test {target : String} (htarget : IsPlace target) (restricted : Bool)
    (shape : Shape) : ∀ part ∈ Shape.test target restricted shape, part.Filled IsExpression 0 := by
  have hnull : IsPlace "null" := ⟨by decide +kernel, by decide +kernel⟩
  have htrue : IsPlace "true" := ⟨by decide +kernel, by decide +kernel⟩
  unfold Shape.test
  split
  · exact List.forall_mem_singleton.2
      (.leaf (isExpression_test htarget.isOperand hnull.isOperand rfl))
  · split
    · exact List.forall_mem_nil _
    · exact List.forall_mem_singleton.2 (.leaf (isExpression_of_isBareWord htrue.isBareWord))
  · exact List.forall_mem_singleton.2
      (.leaf (isExpression_test htarget.isOperand (isOperand_jsonList _) rfl))
  · intro part hpart
    rw [Option.mem_toList, Option.map_eq_some_iff] at hpart
    obtain ⟨typeName, hname, rfl⟩ := hpart
    exact .leaf (isExpression_test htarget.isOperand (isPlace_typeName hname).isOperand rfl)

end SecurityRules
