/-
  SecurityRules.Proofs.Collection.GuardText
  ────────────────────────────────
  **HOW A GUARD READS.**

  The text of a guard is put together from texts of the predicate of its
  operation, each rendered against one document, and from the call that checks
  the schema.

    * `Collection.guardText_create`, `Collection.guardText_update` — for the
      operations that leave a document behind; of the others the text is that of
      the predicate;
    * `Collection.faultOf_guardText_update` — an update leaves the fault of its
      predicate, whether lockouts are allowed or not.
-/
import SecurityRules.Collection.Block
import SecurityRules.Proofs.Predicate.TwoScopes

namespace SecurityRules

/-! ## §1. Rules joined with expressions. -/

theorem renderAll_text_cons {text : String} (h : Text.isBlank text = false)
    (parts : List (Formula String)) :
    Formula.renderAll (.text text :: parts) = (Formula.renderAll parts).map (text :: ·) := by
  rw [Formula.renderAll_cons, Formula.render, h]
  rfl

/-- A rule among other parts is rendered first, and its fault comes before
theirs. -/
theorem renderAll_toFormula_cons (rule : Rule) (parts : List (Formula String)) :
    Formula.renderAll (rule.toFormula :: parts)
      = rule.render.bind fun text => (Formula.renderAll parts).map (text :: ·) := by
  rw [Formula.renderAll_cons, ← rule.map_some_render]
  cases rule.render <;> rfl

namespace Collection

/-! ## §2. Guards. -/

/-- The text of the predicate of an operation, rendered against a document. -/
def accessText (c : Collection) (op : Operation) (document : String) : Except Fault String :=
  (c.access op).renderIn ⟨document, none⟩

theorem accessText_eq (c : Collection) (op : Operation) (document : String) :
    c.accessText op document = (c.accessIn op document).bind Rule.render := rfl

theorem isBlank_meetsIncoming : Text.isBlank (meetsSchema incomingDocument) = false := by
  decide +kernel

/-- The guard of a creation: the access, then the schema. -/
theorem guardText_create (c : Collection) :
    c.guardText .create = (c.accessText .create incomingDocument).map fun text =>
      "(" ++ text ++ " && isValidSchema(request.resource.data))" := by
  rw [accessText_eq]
  unfold guardText guard
  cases c.accessIn .create incomingDocument with
  | error fault => rfl
  | ok rule =>
      show (Formula.renderAll [rule.toFormula, .text (meetsSchema incomingDocument)]).bind _
        = rule.render.map _
      rw [renderAll_toFormula_cons, renderAll_text_cons isBlank_meetsIncoming]
      cases rule.render with
      | error fault => rfl
      | ok text =>
          have hend : " && " ++ (meetsSchema incomingDocument ++ ")")
              = " && isValidSchema(request.resource.data))" := by decide +kernel
          show Except.ok ("(" ++ (text ++ " && " ++ meetsSchema incomingDocument) ++ ")") = .ok _
          rw [String.append_assoc, String.append_assoc, String.append_assoc, hend,
            ← String.append_assoc]

theorem updateOpening : "(" ++ meetsSchema incomingDocument ++ " && "
    = "(isValidSchema(request.resource.data) && " := by
  decide +kernel

/-- The guard of an update that may lock out: the schema, then the access to the
stored document alone. -/
theorem guardText_update_of_allowed {c : Collection} (h : c.preventsLockout = false) :
    c.guardText .update = (c.accessText .update storedDocument).map fun before =>
      "(isValidSchema(request.resource.data) && " ++ before ++ ")" := by
  rw [accessText_eq]
  unfold guardText guard
  rw [h]
  cases c.accessIn .update storedDocument with
  | error fault => rfl
  | ok rule =>
      show (Formula.renderAll [.text (meetsSchema incomingDocument), rule.toFormula]).bind _
        = rule.render.map _
      rw [renderAll_text_cons isBlank_meetsIncoming, renderAll_toFormula_cons]
      cases rule.render with
      | error fault => rfl
      | ok before =>
          show Except.ok ("(" ++ (meetsSchema incomingDocument ++ " && " ++ before) ++ ")") = .ok _
          rw [← updateOpening]
          simp only [String.append_assoc]

/-- An update that must not lock anybody out has to be allowed by both
documents. -/
theorem guardText_update_of_prevented {c : Collection} (h : c.preventsLockout = true) :
    c.guardText .update = (c.accessText .update storedDocument).bind fun before =>
      (c.accessText .update incomingDocument).map fun after =>
        "(isValidSchema(request.resource.data) && " ++ before ++ " && " ++ after ++ ")" := by
  -- both documents are looked at before either text is made, but they fail together
  have hfault : faultOf (c.accessIn .update storedDocument)
      = faultOf (c.accessIn .update incomingDocument) :=
    Predicate.faultOf_resolve_congr (s := ⟨storedDocument, none⟩) (t := ⟨incomingDocument, none⟩)
      rfl _
  rw [accessText_eq, accessText_eq]
  unfold guardText guard
  rw [h]
  cases hstored : c.accessIn .update storedDocument with
  | error fault => rfl
  | ok rule =>
      rw [hstored] at hfault
      obtain ⟨other, hincoming⟩ := faultOf_eq_none.1 hfault.symm
      rw [hincoming]
      show (Formula.renderAll [.text (meetsSchema incomingDocument), rule.toFormula,
          other.toFormula]).bind _ = rule.render.bind fun before => other.render.map _
      rw [renderAll_text_cons isBlank_meetsIncoming, renderAll_toFormula_cons,
        renderAll_toFormula_cons]
      cases rule.render with
      | error fault => rfl
      | ok before =>
          cases other.render with
          | error fault => rfl
          | ok after =>
              show Except.ok ("("
                ++ (meetsSchema incomingDocument ++ " && " ++ before ++ " && " ++ after) ++ ")")
                = .ok _
              rw [← updateOpening]
              simp only [String.append_assoc]

/-- **An update leaves the fault of its predicate**, whether lockouts are allowed
or not. -/
theorem faultOf_guardText_update (c : Collection) :
    faultOf (c.guardText .update) = faultOf (c.accessText .update storedDocument) := by
  cases h : c.preventsLockout with
  | false => rw [guardText_update_of_allowed h, faultOf_map]
  | true =>
      have hfault : faultOf (c.accessText .update storedDocument)
          = faultOf (c.accessText .update incomingDocument) :=
        Predicate.faultOf_renderIn_congr (s := ⟨storedDocument, none⟩)
          (t := ⟨incomingDocument, none⟩) rfl _
      rw [guardText_update_of_prevented h]
      refine (faultOf_bind_bind _ _ _).trans ?_
      rw [← hfault, Option.or_self]

end Collection

end SecurityRules
