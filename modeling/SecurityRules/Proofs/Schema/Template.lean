/-
  SecurityRules.Proofs.Schema.Template
  ────────────────────────────────
  **WHAT DEPENDS ON A PATH ONLY BY HAVING IT PUT IN.**

  A template is a text in which the path is left open at some places.  What
  depends on a path is uniform if one template, or one tree of them, or one fault
  stands for it, whichever path is put in.  The empty path is left out: a segment
  below it stands without a dot.

    * `Template.fill`, `Junction.map` — the path put into a text, and into a tree;
    * `Uniform`, `UniformResult` — one template for all paths, and the laws of
      what is put together from uniform parts;
    * `Formula.uniform_render` — the text of a tree of templates is a template,
      where no leaf can become blank;
    * `Predicate.uniform_resolve` — what a predicate becomes is uniform where the
      document and the owner of its scope are.
-/
import Mathlib.Tactic.Choose
import SecurityRules.Proofs.Predicate.TwoScopes
import SecurityRules.Proofs.Schema.Building

namespace SecurityRules

/-! ## §1. Templates. -/

/-- A piece of a template: a text as it stands, or a place for the path. -/
inductive Piece where
  | text (text : String)
  | hole

/-- A text in which a path is left open. -/
abbrev Template := List Piece

/-- The piece with the path put in. -/
def Piece.fill (path : String) : Piece → String
  | text s => s
  | hole => path

/-- The template with the path put in. -/
def Template.fill (path : String) (t : Template) : String :=
  String.join (t.map (Piece.fill path))

theorem Template.fill_singleton (path : String) (piece : Piece) :
    fill path [piece] = piece.fill path := by
  rw [fill, List.map_singleton, String.join_cons, String.join_nil, String.append_empty]

/-- A path is put into two templates at once. -/
theorem Template.fill_append (path : String) (s t : Template) :
    fill path (s ++ t) = fill path s ++ fill path t := by
  rw [fill, List.map_append, String.join_append]
  rfl

/-- A template of an expression, which is not blank whatever path is put in. -/
structure Expression where
  template : Template
  spoken : ∀ path, path ≠ "" → Text.isBlank (template.fill path) = false

/-- The expression with the path put in. -/
def Expression.fill (path : String) (e : Expression) : String :=
  Template.fill path e.template

/-- The junction with each leaf replaced. -/
def Junction.map {α β : Type} (g : α → β) (j : Junction α) : Junction β :=
  ⟨j.connective, j.parts.map (Formula.map g)⟩

theorem Junction.toFormula_map {α β : Type} (g : α → β) (j : Junction α) :
    (j.map g).toFormula = j.toFormula.map g :=
  (Formula.map_node g j.connective j.parts).symm

theorem Junction.map_map {α β γ : Type} (g : α → β) (h : β → γ) (j : Junction α) :
    (j.map g).map h = j.map fun a => h (g a) := by
  have hparts : (j.parts.map (Formula.map g)).map (Formula.map h)
      = j.parts.map (Formula.map fun a => h (g a)) := by
    rw [List.map_map]
    exact List.map_congr_left fun part _ => Formula.map_map g h part
  exact congrArg (Junction.mk j.connective) hparts

/-! ## §2. What is uniform. -/

section Uniform

variable {α β γ δ ε ζ : Type} {fill : String → β → α} {fill' : String → δ → γ}
  {fill'' : String → ζ → ε}

/-- Whether one thing with holes stands for what depends on a path, whichever path
is put in. -/
def Uniform (fill : String → β → α) (f : String → α) : Prop :=
  ∃ b, ∀ path, path ≠ "" → f path = fill path b

/-- Whether one fault, or one thing with holes, stands for a result that depends
on a path. -/
def UniformResult (fill : String → β → α) (x : String → Except Fault α) : Prop :=
  Uniform (fun path => Except.map (fill path)) x

theorem uniform_fill (b : β) : Uniform fill fun path => fill path b :=
  ⟨b, fun _ _ => rfl⟩

/-- Only paths that are not empty count. -/
theorem Uniform.congr {f g : String → α} (hg : Uniform fill g)
    (h : ∀ path, path ≠ "" → f path = g path) : Uniform fill f := by
  obtain ⟨b, hb⟩ := hg
  exact ⟨b, fun path hpath => (h path hpath).trans (hb path hpath)⟩

/-- What is put together from two parts with holes has their holes. -/
theorem Uniform.map₂ {f : String → α} {g : String → γ} (hf : Uniform fill f)
    (hg : Uniform fill' g) {join : α → γ → ε} {join' : β → δ → ζ}
    (hjoin : ∀ path b d, join (fill path b) (fill' path d) = fill'' path (join' b d)) :
    Uniform fill'' fun path => join (f path) (g path) := by
  obtain ⟨b, hb⟩ := hf
  obtain ⟨d, hd⟩ := hg
  refine ⟨join' b d, fun path hpath => ?_⟩
  show join (f path) (g path) = _
  rw [hb path hpath, hd path hpath, hjoin]

theorem UniformResult.congr {x y : String → Except Fault α} (hy : UniformResult fill y)
    (h : ∀ path, path ≠ "" → x path = y path) : UniformResult fill x :=
  Uniform.congr hy h

/-- What is there for every path is uniform as a result where it is as a thing.
-/
theorem UniformResult.ok {f : String → α} (hf : Uniform fill f) :
    UniformResult fill fun path => .ok (f path) := by
  obtain ⟨b, hb⟩ := hf
  exact ⟨.ok b, fun path hpath => congrArg Except.ok (hb path hpath)⟩

/-- A fault that does not depend on the path is uniform. -/
theorem UniformResult.error (fault : Fault) :
    UniformResult fill fun _ => .error fault :=
  ⟨.error fault, fun _ _ => rfl⟩

/-- **What follows a uniform result** is uniform if it is so behind each thing with
holes. -/
theorem UniformResult.bind {x : String → Except Fault α} {k : String → α → Except Fault γ}
    (hx : UniformResult fill x) (hk : ∀ b, UniformResult fill' fun path => k path (fill path b)) :
    UniformResult fill' fun path => x path >>= k path := by
  obtain ⟨outcome, hx⟩ := hx
  cases outcome with
  | error fault =>
      refine ⟨.error fault, fun path hpath => ?_⟩
      show x path >>= k path = _
      rw [hx path hpath]
      rfl
  | ok b =>
      obtain ⟨rest, hrest⟩ := hk b
      refine ⟨rest, fun path hpath => ?_⟩
      show x path >>= k path = _
      rw [hx path hpath]
      exact hrest path hpath

/-- What is made of a uniform result is uniform. -/
theorem UniformResult.map {x : String → Except Fault α} {g : String → α → γ}
    (hx : UniformResult fill x) (hg : ∀ b, Uniform fill' fun path => g path (fill path b)) :
    UniformResult fill' fun path => (x path).map (g path) := by
  have hbind := hx.bind (k := fun path a => .ok (g path a)) fun b => .ok (hg b)
  refine hbind.congr fun path _ => ?_
  show (x path).map (g path) = x path >>= _
  cases x path <;> rfl

end Uniform

/-! ## §3. Texts and trees. -/

section Texts

variable {f g : String → String}

theorem uniform_text (text : String) : Uniform Template.fill fun _ => text :=
  ⟨[.text text], fun path _ => (Template.fill_singleton path (.text text)).symm⟩

theorem uniform_path : Uniform Template.fill fun path => path :=
  ⟨[.hole], fun path _ => (Template.fill_singleton path .hole).symm⟩

/-- Two texts with holes, one behind the other, are a text with the holes of
both. -/
theorem Uniform.append (hf : Uniform Template.fill f) (hg : Uniform Template.fill g) :
    Uniform Template.fill fun path => f path ++ g path :=
  hf.map₂ hg fun path s t => (Template.fill_append path s t).symm

/-- Joined templates are a template. -/
theorem uniform_intercalate (sep : String) (ts : List Template) :
    Uniform Template.fill fun path => sep.intercalate (ts.map (Template.fill path)) := by
  induction ts with
  | nil => exact uniform_text ""
  | cons t ts ih =>
      cases ts with
      | nil => exact (uniform_fill t).congr fun _ _ => String.intercalate_singleton
      | cons next ts =>
          have hfront := (uniform_fill t).append (uniform_text sep)
          exact (hfront.append ih).congr fun _ _ => String.intercalate_cons_cons

/-- An operator puts words between its sides, and in one case swaps them. -/
theorem Operator.uniform_apply (op : Operator) (hf : Uniform Template.fill f)
    (hg : Uniform Template.fill g) :
    Uniform Template.fill fun path => op.apply (f path) (g path) := by
  cases op with
  | notMemberOf =>
      exact (((uniform_text "!(").append hf).append (uniform_text " in ")).append hg
        |>.append (uniform_text ")")
  | contains => exact (hg.append (uniform_text " in ")).append hf
  | containsAny =>
      exact ((hf.append (uniform_text ".hasAny(")).append hg).append (uniform_text ")")
  | equal | notEqual | less | lessOrEqual | greater | greaterOrEqual | memberOf | ofType =>
      exact (((hf.append (uniform_text " ")).append (uniform_text _)).append
        (uniform_text " ")).append hg

/-- A text with holes that is never blank is an expression. -/
theorem Uniform.expression (hf : Uniform Template.fill f)
    (hspoken : ∀ path, Text.isBlank (f path) = false) : Uniform Expression.fill f := by
  obtain ⟨t, ht⟩ := hf
  exact ⟨⟨t, fun path hpath => ht path hpath ▸ hspoken path⟩, ht⟩

/-- A result that is never blank where it is there. -/
theorem UniformResult.expression {x : String → Except Fault String}
    (hx : UniformResult Template.fill x)
    (hspoken : ∀ path text, x path = .ok text → Text.isBlank text = false) :
    UniformResult Expression.fill x := by
  obtain ⟨outcome, hx⟩ := hx
  cases outcome with
  | error fault => exact ⟨.error fault, hx⟩
  | ok t => exact ⟨.ok ⟨t, fun path hpath => hspoken path _ (hx path hpath)⟩, hx⟩

end Texts

/-- Parts with the path put into each leaf. -/
abbrev fillParts (path : String) : List (Formula Expression) → List (Formula String) :=
  List.map (Formula.map (Expression.fill path))

/-- A tree with the path put into each leaf. -/
abbrev fillRule (path : String) : Junction Expression → Rule :=
  Junction.map (Expression.fill path)

section Parts

variable {f : String → String} {parts more : String → List (Formula String)} {own : String → Rule}

theorem uniform_nil : Uniform fillParts fun _ => [] :=
  ⟨[], fun _ _ => rfl⟩

/-- Parts with holes can be put behind others. -/
theorem Uniform.append_parts (hparts : Uniform fillParts parts) (hmore : Uniform fillParts more) :
    Uniform fillParts fun path => parts path ++ more path :=
  hparts.map₂ hmore fun _ _ _ => List.map_append.symm

/-- An expression as the only part. -/
theorem Uniform.leaf (hf : Uniform Template.fill f)
    (hspoken : ∀ path, Text.isBlank (f path) = false) :
    Uniform fillParts fun path => [.text (f path)] := by
  obtain ⟨e, he⟩ := hf.expression hspoken
  exact ⟨[.leaf e], fun path hpath => congrArg (fun text => [Formula.text text]) (he path hpath)⟩

/-- A connective over parts with holes is a tree with holes. -/
theorem Uniform.rule (c : Connective) (hparts : Uniform fillParts parts) :
    Uniform fillRule fun path => ⟨c, parts path⟩ := by
  obtain ⟨ps, hps⟩ := hparts
  exact ⟨⟨c, ps⟩, fun path hpath => congrArg (Junction.mk c) (hps path hpath)⟩

/-- A tree as the only part of a larger one. -/
theorem Uniform.part (hown : Uniform fillRule own) :
    Uniform fillParts fun path => [(own path).toFormula] := by
  obtain ⟨j, hj⟩ := hown
  refine ⟨[j.toFormula], fun path hpath => ?_⟩
  show [(own path).toFormula] = [j.toFormula.map (Expression.fill path)]
  rw [hj path hpath, Junction.toFormula_map]

end Parts

/-! ## §4. Rendering. -/

/-- How many parts there are decides about the parentheses, and a template has
as many as what it is filled to. -/
theorem Connective.uniform_enclose (c : Connective) (ts : List Template) :
    UniformResult Template.fill fun path => c.enclose (ts.map (Template.fill path)) := by
  match ts with
  | [] => exact .error .emptyRule
  | [t] => exact .ok (uniform_fill t)
  | t :: next :: ts =>
      have hjoined := uniform_intercalate (" " ++ c.symbol ++ " ") (t :: next :: ts)
      exact .ok (((uniform_text "(").append hjoined).append (uniform_text ")"))

namespace Formula

/-- The texts of parts are templates where the text of each part is: which of
them are left out does not depend on the path. -/
theorem uniform_renderAll {parts : List (Formula Expression)}
    (h : ∀ part ∈ parts, UniformResult (fun path => Option.map (Template.fill path))
      fun path => render (part.map (Expression.fill path))) :
    UniformResult (fun path => List.map (Template.fill path))
      fun path => renderAll (fillParts path parts) := by
  induction parts with
  | nil => exact .ok ⟨[], fun _ _ => rfl⟩
  | cons part parts ih =>
      obtain ⟨hpart, hparts⟩ := List.forall_mem_cons.1 h
      refine hpart.bind fun kept => (ih hparts).map fun rest => ?_
      refine ⟨kept.toList ++ rest, fun path _ => ?_⟩
      cases kept <;> rfl

/-- **The text of a tree of templates is a template**, or the tree has no text
whichever path is put in. -/
theorem uniform_render (t : Formula Expression) :
    UniformResult (fun path => Option.map (Template.fill path))
      fun path => render (t.map (Expression.fill path)) := by
  induction t using Formula.induct with
  | leaf e =>
      refine ⟨.ok (some e.template), fun path hpath => ?_⟩
      have hspoken : Text.isBlank (Expression.fill path e) = false := e.spoken path hpath
      show render (.leaf (Expression.fill path e)) = _
      rw [render, hspoken]
      rfl
  | node c parts ih =>
      have htext := (uniform_renderAll ih).bind fun texts => c.uniform_enclose texts
      refine (htext.map fun t => ⟨some t, fun _ _ => rfl⟩).congr fun path _ => ?_
      show render (map (Expression.fill path) (.node c parts)) = _
      rw [map_node, render_node]
      rfl

end Formula

/-- The text of a rule with holes is a template, or the same fault for every
path. -/
theorem Rule.uniform_render (rule : Junction Expression) :
    UniformResult Template.fill fun path => Rule.render (fillRule path rule) := by
  have hparts : ∀ part ∈ rule.parts, _ := fun part _ => part.uniform_render
  exact (Formula.uniform_renderAll hparts).bind fun texts => rule.connective.uniform_enclose texts

/-! ## §5. Predicates in a scope. -/

/-- Where something lies, as it depends on the path of the whole. -/
structure Site (place : String → String) : Prop where
  uniform : Uniform Template.fill place
  ne_empty : ∀ path, path ≠ "" → place path ≠ ""

section Resolution

variable {document owner : String → String}

/-- A path below a site is the template of the site with a segment behind it. -/
theorem Site.uniform_joinPath (h : Site document) (name : String) :
    Uniform Template.fill fun path => Text.joinPath (document path) name := by
  have htext := (h.uniform.append (uniform_text ".")).append (uniform_text name)
  exact htext.congr fun path hpath => Text.joinPath_of_ne (h.ne_empty path hpath) name

/-- A reference becomes the owner, or a path below the document. -/
theorem Reference.uniform_resolve (hdocument : Site document)
    (howner : Uniform Template.fill owner) (r : Reference) :
    UniformResult Template.fill fun path => r.resolve ⟨document path, some (owner path)⟩ := by
  cases r with
  | this => exact .ok howner
  | named name =>
      by_cases hname : name = ""
      · exact UniformResult.congr (.error .blankReference) fun path _ => if_pos hname
      · exact UniformResult.congr (.ok (hdocument.uniform_joinPath name)) fun path _ => if_neg hname

/-- **What an operand becomes is uniform**: whether it is a fault is decided by
its own texts, and else it is a text, a path or a call around a path. -/
theorem Operand.uniform_resolve (hdocument : Site document)
    (howner : Uniform Template.fill owner) (o : Operand) :
    UniformResult Template.fill fun path => o.resolve ⟨document path, some (owner path)⟩ := by
  cases o with
  | literal text =>
      by_cases hblank : Text.isBlank text = true
      · exact UniformResult.congr (.error .blankOperand) fun path _ => if_pos hblank
      · exact UniformResult.congr (.ok (uniform_text text)) fun path _ => if_neg hblank
  | field reference => exact reference.uniform_resolve hdocument howner
  | lookup via path =>
      by_cases hpath : path = ""
      · exact UniformResult.congr (.error .blankReference) fun _ _ => if_pos hpath
      · have hvia := via.uniform_resolve hdocument howner
        refine UniformResult.congr (hvia.map fun place => ?_) fun _ _ => if_neg hpath
        exact (((uniform_text "get(").append (uniform_fill place)).append
          (uniform_text ").data.")).append (uniform_text path)

/-- The sides of a condition are resolved one after the other, and joined by its
operator. -/
theorem Condition.uniform_resolve (hdocument : Site document)
    (howner : Uniform Template.fill owner) (c : Condition) :
    UniformResult Template.fill fun path => c.resolve ⟨document path, some (owner path)⟩ := by
  refine (c.left.uniform_resolve hdocument howner).bind fun left => ?_
  refine (c.right.uniform_resolve hdocument howner).bind fun right => ?_
  exact .ok (c.operator.uniform_apply (uniform_fill left) (uniform_fill right))

/-- A clause is dropped, or leaves an expression that is not blank, for every
path alike. -/
theorem Clause.uniform_resolve (hdocument : Site document)
    (howner : Uniform Template.fill owner) (c : Clause) :
    UniformResult (fun path => Option.map (Expression.fill path))
      fun path => c.resolve ⟨document path, some (owner path)⟩ := by
  cases c with
  | literal text =>
      cases hblank : Text.isBlank text with
      | true =>
          refine UniformResult.congr (.ok ⟨none, fun _ _ => rfl⟩) fun path _ => ?_
          rw [Clause.resolve, hblank]
          rfl
      | false =>
          obtain ⟨e, he⟩ := (uniform_text text).expression fun _ => hblank
          refine UniformResult.congr (.ok ⟨some e, fun path hpath => congrArg some (he path hpath)⟩)
            fun path _ => ?_
          rw [Clause.resolve, hblank]
          rfl
  | condition c =>
      have htext := (c.uniform_resolve hdocument howner).expression fun path text htext =>
        Clause.isBlank_of_resolve (Clause.resolve_eq_ok_some.2 (.inr ⟨c, rfl, htext⟩))
      exact htext.map fun e => ⟨some e, fun _ _ => rfl⟩

/-- **What a predicate becomes is uniform** where the document and the owner are. -/
theorem Predicate.uniform_resolve (hdocument : Site document)
    (howner : Uniform Template.fill owner) (p : Predicate) :
    UniformResult fillRule fun path => p.resolve ⟨document path, some (owner path)⟩ := by
  choose outcome houtcome using Clause.uniform_resolve hdocument howner
  refine ⟨p.traverse outcome, fun path hpath => ?_⟩
  have hleaves : Clause.resolve ⟨document path, some (owner path)⟩
      = fun c => (outcome c).map (Option.map (Expression.fill path)) :=
    funext fun c => houtcome c path hpath
  show (Formula.traverseAll _ p.parts).map _ = ((Formula.traverseAll _ p.parts).map _).map _
  rw [hleaves, Formula.traverseAll_map_right fun part _ => Formula.traverse_map_right _ _ part]
  cases Formula.traverseAll outcome p.parts <;> rfl

end Resolution

end SecurityRules
