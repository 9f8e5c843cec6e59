/-
  SecurityRules.Proofs.Schema.ElementName
  ────────────────────────────────
  **NAMES FOR THE ELEMENTS OF LISTS.**

  The name of an element comes from the last segment of the path of its list,
  and what a reference to a field starts with is the first name in the path of
  its document.  So of a path both ends matter, and a step into a key, or into
  the elements of a list, changes them in a simple way.

    * `Located` — a path with its two ends;
    * `located_joinPath`, `located_of_isName` — the path of a key, and the name of
      an element as a path of its own;
    * `Located.elementName_eq` — the name of an element.
-/
import SecurityRules.Schema.Rules
import SecurityRules.Proofs.Shorthand.Operand

namespace SecurityRules

open Shorthand SecurityRules.Text

/-! ## §1. The ends of a path. -/

/-- What stands in front of the first dot of a path. -/
def firstName (path : String) : String :=
  String.ofList (path.toList.takeWhile (· != '.'))

/-- A field below a document has the first name of the document. -/
theorem firstName_joinPath {document : String} (h : document ≠ "") (name : String) :
    firstName (joinPath document name) = firstName document := by
  have htake : ∀ front rest : List Char,
      (front ++ '.' :: rest).takeWhile (· != '.') = front.takeWhile (· != '.') := by
    intro front rest
    induction front with
    | nil => rfl
    | cons c front ih => rw [List.cons_append, List.takeWhile_cons, List.takeWhile_cons, ih]
  rw [joinPath_of_ne h, String.append_assoc, firstName, String.toList_append,
    String.toList_append]
  exact congrArg String.ofList (htake document.toList name.toList)

theorem isDigit_of_isNameStart {c : Char} (h : isNameStart c = true) : c.isDigit = false := by
  cases hdigit : c.isDigit with
  | false => rfl
  | true =>
      delta isNameStart Char.isAlpha Char.isUpper Char.isLower at h
      delta Char.isDigit at hdigit
      simp only [Bool.or_eq_true, Bool.and_eq_true, decide_eq_true_eq, beq_iff_eq,
        UInt32.le_iff_toNat_le] at h hdigit
      rcases h with (h | h) | rfl
      · simp at h hdigit; omega
      · simp at h hdigit; omega
      · exact absurd hdigit (by decide)

theorem dot_notMem_of_isName {name : List Char} (h : isName name = true) : '.' ∉ name := by
  cases name with
  | nil => exact List.not_mem_nil
  | cons c name =>
      obtain ⟨hstart, hrest⟩ := Bool.and_eq_true_iff.1 h
      intro hdot
      rcases List.mem_cons.1 hdot with rfl | hdot
      · exact absurd hstart (by decide)
      · exact absurd (List.all_eq_true.1 hrest _ hdot) (by decide)

theorem lastSegment_of_notMem {path : List Char} (h : '.' ∉ path) : lastSegment path = path := by
  cases path with
  | nil => rfl
  | cons c path => rw [lastSegment, if_neg h]

/-- The last segment of a path is that of the part behind any of its dots. -/
theorem lastSegment_append_dot (front rest : List Char) :
    lastSegment (front ++ '.' :: rest) = lastSegment rest := by
  induction front with
  | nil => rw [List.nil_append, lastSegment, if_pos List.mem_cons_self]
  | cons c front ih =>
      have hdot : '.' ∈ c :: (front ++ '.' :: rest) :=
        List.mem_cons_of_mem _ (List.mem_append_right _ List.mem_cons_self)
      rw [List.cons_append, lastSegment, if_pos hdot, ih]

/-! ## §2. Places with a name. -/

/-- The name that an element of a list with the name `list` gets. -/
def itemName (list : String) : String := list ++ "_item"

/-- The name of the elements of a named list is a name. -/
theorem isName_itemName {list : String} (h : isName list.toList = true) :
    isName (itemName list).toList = true := by
  rw [itemName, String.toList_append]
  cases hlist : list.toList with
  | nil =>
      rw [hlist] at h
      cases h
  | cons c rest =>
      rw [hlist] at h
      obtain ⟨hstart, hrest⟩ := Bool.and_eq_true_iff.1 h
      refine Bool.and_eq_true_iff.2 ⟨hstart, ?_⟩
      show (rest ++ "_item".toList).all isNameChar = true
      rw [List.all_append, hrest]
      decide

/-- A path with its first name and with its last segment, which is a name. -/
structure Located (path first last : String) : Prop where
  ne_empty : path ≠ ""
  first : firstName path = first
  segment : lastSegment path.toList = last.toList
  isName : isName last.toList = true

variable {path first last : String}

theorem joinPath_ne_empty {document : String} (h : document ≠ "") (name : String) :
    joinPath document name ≠ "" := by
  intro hnil
  rw [joinPath_of_ne h, String.append_assoc] at hnil
  exact h (String.append_eq_empty_iff.1 hnil).1

/-- A field with a name stands at a place: below the document, with its own name
last. -/
theorem located_joinPath {document : String} (h : document ≠ "") {name : String}
    (hname : isName name.toList = true) :
    Located (joinPath document name) (firstName document) name where
  ne_empty := joinPath_ne_empty h name
  first := firstName_joinPath h name
  segment := by
    rw [joinPath_of_ne h, String.append_assoc, String.toList_append, String.toList_append]
    exact (lastSegment_append_dot _ _).trans (lastSegment_of_notMem (dot_notMem_of_isName hname))
  isName := hname

/-- A variable that is a name stands at a place by itself. -/
theorem located_of_isName {name : String} (h : isName name.toList = true) :
    Located name name name where
  ne_empty := by
    rintro rfl
    cases h
  first := by
    have hall : name.toList.all (· != '.') = true := by
      refine List.all_eq_true.2 fun c hc => bne_iff_ne.2 ?_
      rintro rfl
      exact dot_notMem_of_isName h hc
    have htake := takeWhile_append_of_all hall (rfl : ([] : List Char).head?.any _ = false)
    rw [List.append_nil] at htake
    rw [firstName, htake, String.ofList_toList]
  segment := lastSegment_of_notMem (dot_notMem_of_isName h)
  isName := h

/-- The name of an element comes from the last segment alone. -/
theorem Located.elementName_eq (h : Located path first last) :
    elementName path = itemName last := by
  obtain ⟨-, -, hsegment, hname⟩ := h
  rw [elementName, hsegment]
  cases hlast : last.toList with
  | nil =>
      rw [hlast] at hname
      cases hname
  | cons c rest =>
      rw [hlast] at hname
      obtain ⟨hstart, hrest⟩ := Bool.and_eq_true_iff.1 hname
      have hfilter : (c :: rest).filter isNameChar = c :: rest :=
        List.filter_eq_self.2 (List.forall_mem_cons.2
          ⟨isNameChar_of_isNameStart hstart, List.all_eq_true.1 hrest⟩)
      have hdigit := isDigit_of_isNameStart hstart
      rw [hfilter]
      show (if c.isDigit then _ else _) = _
      rw [hdigit, ← hlast, String.ofList_toList]
      rfl

end SecurityRules
