import SchemaSieve.Proofs.Conforming
import SchemaSieve.Proofs.DecidableEquality
import SchemaSieve.Proofs.Policies

/-!
# Sanitizing twice

A normal form nests as deep as what it came from, and has the same issues, since
these are only wrong counts, which it keeps with its names and lengths.  What has
been sanitized comes out of a second run unchanged.
-/

namespace SchemaSieve

open Value Validation Normalization

/-! ## Depth -/

theorem nesting_of_isNormalForm {d : Descriptor} {v w : Value} (h : IsNormalForm d v w) :
    w.nesting = v.nesting := by
  induction h using IsNormalForm.induction with
  | scalar tag v w h hcoerce =>
      have hcanonical := Coercion.isCanonical_of_coerce? hcoerce
      rw [nesting_of_not_container (isContainer_of_coerce? hcoerce),
        nesting_of_not_container (isContainer_of_isCanonical hcanonical)]
  | map schema v fields h hshape hfields =>
      refine nesting_eq_of_elements (isContainer_of_isMapping hshape) rfl
        (forall₂_elements (hfields.imp ?_))
      rintro e f ⟨-, d, -, -, ih⟩
      exact ih
  | array element v items h hshape hitems =>
      refine nesting_eq_of_elements (isContainer_of_isSequence hshape) rfl (hitems.imp ?_)
      rintro x y ⟨-, ih⟩
      exact ih

theorem depth_of_normalizeDocument {v w : Value} {schema : Schema}
    (h : normalizeDocument v schema = .ok w) : w.depth = v.depth := by
  obtain ⟨hcontainer, hcontainer', hfields⟩ := fields_of_normalizeDocument h
  rw [depth_eq_nesting, depth_eq_nesting]
  refine nesting_eq_of_elements hcontainer hcontainer' (forall₂_elements (hfields.imp ?_))
  rintro e f ⟨-, d, -, hform⟩
  exact nesting_of_isNormalForm hform

/-! ## Issues -/

def SameIssues (mode : ElementPaths) (d : Descriptor) (v w : Value) : Prop :=
  ∀ p, checkField mode p w d = checkField mode p v d ∧
    checkElement mode p w d = checkElement mode p v d

def SameEntryIssues (mode : ElementPaths) (schema : Schema) (e f : String × Value) : Prop :=
  f.1 = e.1 ∧ ∃ d, schema.get? e.1 = some d ∧ SameIssues mode d e.2 f.2

section SameIssues

variable {mode : ElementPaths} {schema : Schema} {v w : Value}

theorem checkCount_of_names {p : FieldPath}
    (hnames : Members.names w.entries = Members.names v.entries) :
    checkCount p w schema = checkCount p v schema := by
  have hlen : w.entries.length = v.entries.length := by
    simpa [Members.names] using congrArg List.length hnames
  rw [checkCount, checkCount, hlen]

theorem names_of_sameEntryIssues {es fs : List (String × Value)}
    (h : List.Forall₂ (SameEntryIssues mode schema) es fs) :
    Members.names fs = Members.names es :=
  map_eq_of_forall₂ (fun _ _ hef => hef.1) h

theorem checkEntry_of_sameEntryIssues {p : FieldPath} {e f : String × Value}
    (h : SameEntryIssues mode schema e f) :
    checkEntry mode p schema f = checkEntry mode p schema e := by
  obtain ⟨hname, d, hd, hsame⟩ := h
  simp only [checkEntry, hname, hd, (hsame _).1]

theorem level_of_sameEntryIssues (p : FieldPath)
    (h : List.Forall₂ (SameEntryIssues mode schema) v.entries w.entries) :
    checkCount p w schema ++ w.entries.flatMap (checkEntry mode p schema) =
      checkCount p v schema ++ v.entries.flatMap (checkEntry mode p schema) := by
  have hentries : w.entries.flatMap (checkEntry mode p schema) =
      v.entries.flatMap (checkEntry mode p schema) :=
    flatMap_eq_of_forall₂ (fun _ _ hef => checkEntry_of_sameEntryIssues hef) h
  rw [hentries, checkCount_of_names (names_of_sameEntryIssues h)]

theorem sameIssues_scalar {tag : ScalarTag} (hv : Coercion.accepts tag v = true)
    (hw : Coercion.accepts tag w = true) : SameIssues mode (.scalar tag) v w := by
  intro p
  simp [checkField_scalar, checkElement, checkScalar, hv, hw]

theorem sameIssues_map (hv : v.isMapping = true)
    (h : List.Forall₂ (SameEntryIssues mode schema) v.entries w.entries)
    (hw : w.isMapping = true) : SameIssues mode (.map schema) v w := by
  have hfield : ∀ p, checkField mode p w (.map schema) = checkField mode p v (.map schema) := by
    intro p
    rw [checkField_map, checkField_map, if_pos hv, if_pos hw, level_of_sameEntryIssues p h]
  exact fun p => ⟨hfield p, hfield p⟩

theorem checkElements_of_sameIssues {p : FieldPath} {index : Nat} {element : Descriptor}
    {xs ys : List Value} (h : List.Forall₂ (SameIssues mode element) xs ys) :
    checkElements mode p index ys element = checkElements mode p index xs element := by
  induction h generalizing index with
  | nil => rfl
  | @cons x y xs ys hxy _ ih =>
      rw [checkElements_cons, checkElements_cons, ih, (hxy _).2]

theorem sameIssues_array {element : Descriptor} (hv : v.isSequence = true)
    (h : List.Forall₂ (SameIssues mode element) v.elements w.elements)
    (hw : w.isSequence = true) : SameIssues mode (.array element) v w := by
  have hfield : ∀ p,
      checkField mode p w (.array element) = checkField mode p v (.array element) := by
    intro p
    rw [checkField_array, checkField_array, if_pos hv, if_pos hw, checkElements_of_sameIssues h]
  exact fun p => ⟨hfield p, hfield p⟩

theorem validate_of_sameEntryIssues (hv : v.isContainer = true)
    (h : List.Forall₂ (SameEntryIssues mode schema) v.entries w.entries)
    (hw : w.isContainer = true) : validate mode w schema = validate mode v schema := by
  rw [validate_eq, validate_eq, if_pos hv, if_pos hw, level_of_sameEntryIssues .root h]

end SameIssues

theorem sameIssues_of_isNormalForm (mode : ElementPaths) {d : Descriptor} {v w : Value}
    (h : IsNormalForm d v w) : SameIssues mode d v w := by
  -- under every type the issues of a value are those of its elements, and a count
  -- that the names of its entries decide
  induction h using IsNormalForm.induction with
  | scalar tag v w h hcoerce =>
      refine sameIssues_scalar ?_ ?_
      · simp [Coercion.accepts, hcoerce]
      · simp [Coercion.accepts, Coercion.coerce?_coerce? hcoerce]
  | map schema v fields h hshape hfields =>
      refine sameIssues_map hshape (hfields.imp ?_)
        (isMapping_of_names hshape (names_of_isNormalForm_map h))
      rintro e f ⟨hname, d, hd, -, ih⟩
      exact ⟨hname, d, hd, ih⟩
  | array element v items h hshape hitems =>
      refine sameIssues_array hshape (hitems.imp ?_) rfl
      rintro x y ⟨-, ih⟩
      exact ih

theorem validate_of_normalizeDocument {v w : Value} {schema : Schema} (mode : ElementPaths)
    (h : normalizeDocument v schema = .ok w) :
    validate mode w schema = validate mode v schema := by
  obtain ⟨hcontainer, hcontainer', hfields⟩ := fields_of_normalizeDocument h
  refine validate_of_sameEntryIssues hcontainer (hfields.imp ?_) hcontainer'
  rintro e f ⟨hname, d, hd, hform⟩
  exact ⟨hname, d, hd, sameIssues_of_isNormalForm mode hform⟩

/-- What a run gives, a second run under the same options gives again. -/
theorem sanitizeValue_idempotent {o : Options} {v : Value} {schema : Schema} {r : Sanitized}
    (h : sanitizeValue o v schema = .ok r) : sanitizeValue o r.value schema = .ok r := by
  obtain ⟨hdepth, hnormal, hwarnings, hpolicy⟩ := sanitizeValue_eq_ok_iff.mp h
  refine sanitizeValue_eq_ok_iff.mpr ⟨?_, normalizeDocument_normal hnormal, ?_, hpolicy⟩
  · rw [depth_of_normalizeDocument hnormal]
    exact hdepth
  · rw [validate_of_normalizeDocument o.elementPaths hnormal]
    exact hwarnings

theorem sanitizeValue_idempotent_reshaped :
    let o : Options := { warnings := .report, elementPaths := .indexed }
    let v : Value := .mapping
      [("ids", .mapping [("0", .string "1e1"), ("1", .unsigned 18446744073709551615)]),
        ("none", .sequence []), ("phone", .string "8 (950) 288-56-23")]
    let schema : Schema :=
      [("ids", .array (.scalar .int)), ("none", .map [("x", .scalar .float)]),
        ("phone", .scalar .phone)]
    let r : Sanitized :=
      ⟨.mapping [("ids", .sequence [.integer 10, .unsigned 18446744073709551615]),
          ("none", .mapping []), ("phone", .string "79502885623")],
        [⟨⟨["none"]⟩, .countMismatch 0 1⟩]⟩
    sanitizeValue o v schema = .ok r ∧ sanitizeValue o r.value schema = .ok r := by
  intro o v schema r
  have hrun : sanitizeValue o v schema = .ok r := by decide +kernel
  exact ⟨hrun, sanitizeValue_idempotent hrun⟩

end SchemaSieve
