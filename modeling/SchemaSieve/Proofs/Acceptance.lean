import SchemaSieve.Proofs.Issues
import SchemaSieve.Proofs.NormalForm

/-!
# Acceptance

`Fits d v` says, apart from both walks, that a value fits a type: a scalar
coerces, a container has the shape its type asks for, every name is declared and
what stands below fits in turn.  Validation finds no error and normalization has
a normal form in exactly these cases, so the two agree on every document.
-/

namespace SchemaSieve

open Value

/-- A value fits a type.  Nothing fits a malformed one. -/
inductive Fits : Descriptor → Value → Prop
  | scalar {tag : ScalarTag} {v : Value} (accepted : Coercion.accepts tag v = true) :
      Fits (.scalar tag) v
  | map {schema : Schema} {v : Value} (shape : v.isMapping = true)
      (declared : ∀ e ∈ v.entries, ∃ d, schema.get? e.1 = some d)
      (fields : ∀ e ∈ v.entries, ∀ d, schema.get? e.1 = some d → Fits d e.2) :
      Fits (.map schema) v
  | array {element : Descriptor} {v : Value} (shape : v.isSequence = true)
      (items : ∀ x ∈ v.elements, Fits element x) :
      Fits (.array element) v

def FitsEntries (schema : Schema) (entries : List (String × Value)) : Prop :=
  ∀ e ∈ entries, ∃ d, schema.get? e.1 = some d ∧ Fits d e.2

def FitsDocument (schema : Schema) (v : Value) : Prop :=
  v.isContainer = true ∧ FitsEntries schema v.entries

theorem fits_scalar_iff {tag : ScalarTag} {v : Value} :
    Fits (.scalar tag) v ↔ Coercion.accepts tag v = true := by
  constructor
  · rintro ⟨accepted⟩
    exact accepted
  · exact .scalar

theorem fits_map_iff {schema : Schema} {v : Value} :
    Fits (.map schema) v ↔ v.isMapping = true ∧ FitsEntries schema v.entries := by
  rw [FitsEntries, ← Normalization.declared_and_iff]
  constructor
  · intro h
    cases h with
    | map shape declared fields => exact ⟨shape, declared, fields⟩
  · rintro ⟨shape, declared, fields⟩
    exact .map shape declared fields

theorem fits_array_iff {element : Descriptor} {v : Value} :
    Fits (.array element) v ↔ v.isSequence = true ∧ ∀ x ∈ v.elements, Fits element x := by
  constructor
  · intro h
    cases h with
    | array shape items => exact ⟨shape, items⟩
  · exact fun h => .array h.1 h.2

theorem not_fits_malformed {defect : Defect} {raw : Json} {v : Value} :
    ¬ Fits (.malformed defect raw) v := by
  rintro ⟨⟩

/-! ## Validation -/

namespace Validation

theorem noErrors_checkElement {mode : ElementPaths} {place : FieldPath} {v : Value}
    {d : Descriptor} :
    NoErrors (checkElement mode place v d) ↔ NoErrors (checkField mode place v d) := by
  cases d with
  | scalar tag =>
      rw [checkElement, checkField_scalar, noErrors_checkScalar rfl, noErrors_checkScalar rfl]
  | _ => rfl

theorem noErrors_checkElements {mode : ElementPaths} {path : FieldPath} {index : Nat}
    {elements : List Value} {d : Descriptor}
    (hfits : ∀ x ∈ elements, ∀ place, NoErrors (checkField mode place x d) ↔ Fits d x) :
    NoErrors (checkElements mode path index elements d) ↔ ∀ x ∈ elements, Fits d x := by
  induction elements generalizing index with
  | nil => simp
  | cons x elements ih =>
      rw [checkElements_cons, noErrors_append, noErrors_checkElement,
        hfits x (List.mem_cons_self ..), ih fun y hy => hfits y (List.mem_cons_of_mem x hy)]
      simp

theorem noErrors_checkEntry {mode : ElementPaths} {path : FieldPath} {schema : Schema}
    {e : String × Value}
    (hfits : ∀ place d, NoErrors (checkField mode place e.2 d) ↔ Fits d e.2) :
    NoErrors (checkEntry mode path schema e) ↔
      ∃ d, schema.get? e.1 = some d ∧ Fits d e.2 := by
  rw [checkEntry]
  cases schema.get? e.1 with
  | none => simp; rfl
  | some d => simp [hfits]

theorem noErrors_checkField (mode : ElementPaths) (v : Value) :
    ∀ (path : FieldPath) (d : Descriptor), NoErrors (checkField mode path v d) ↔ Fits d v := by
  induction v using elements_induction with
  | step v ih =>
      intro path d
      cases d with
      | scalar tag => rw [checkField_scalar, noErrors_checkScalar rfl, fits_scalar_iff]
      | map schema =>
          rw [checkField_map, fits_map_iff, FitsEntries]
          cases v.isMapping with
          | false => simp; rfl
          | true =>
              simp only [if_true, noErrors_append, noErrors_checkCount, noErrors_flatMap,
                true_and]
              exact forall₂_congr fun e he =>
                noErrors_checkEntry (ih e.2 (snd_mem_elements he))
      | array element =>
          rw [checkField_array, fits_array_iff]
          cases v.isSequence with
          | false => simp; rfl
          | true =>
              simp only [if_true, true_and]
              exact noErrors_checkElements fun x hx place => ih x hx place element
      | malformed defect raw =>
          simp [checkField_malformed, isError_malformed, not_fits_malformed]

theorem noErrors_validate (mode : ElementPaths) {v : Value} {schema : Schema} :
    NoErrors (validate mode v schema) ↔ FitsDocument schema v := by
  rw [validate_eq, FitsDocument]
  cases v.isContainer with
  | false => simp; rfl
  | true =>
      simp only [if_true, noErrors_append, noErrors_checkCount, noErrors_flatMap, true_and]
      exact forall₂_congr fun e _ => noErrors_checkEntry (noErrors_checkField mode e.2)

end Validation

/-! ## Normalization -/

namespace Normalization

private theorem exists_built_iff {α β : Type} {P : Prop} {Q : α → Prop} {f : α → β} :
    (∃ w, P ∧ ∃ parts, Q parts ∧ w = f parts) ↔ P ∧ ∃ parts, Q parts := by
  constructor
  · rintro ⟨_, hP, parts, hQ, rfl⟩
    exact ⟨hP, parts, hQ⟩
  · rintro ⟨hP, parts, hQ⟩
    exact ⟨_, hP, parts, hQ, rfl⟩

theorem exists_fieldForm_iff {schema : Schema} {e : String × Value} :
    (∃ f, FieldForm schema e f) ↔
      ∃ d, schema.get? e.1 = some d ∧ ∃ w, IsNormalForm d e.2 w := by
  constructor
  · rintro ⟨f, -, d, hd, hf⟩
    exact ⟨d, hd, f.2, hf⟩
  · rintro ⟨d, hd, w, hw⟩
    exact ⟨(e.1, w), rfl, d, hd, hw⟩

theorem exists_fields_iff {schema : Schema} {entries : List (String × Value)}
    (hfits : ∀ e ∈ entries, ∀ d, (∃ w, IsNormalForm d e.2 w) ↔ Fits d e.2) :
    (∃ fields, List.Forall₂ (FieldForm schema) entries fields) ↔
      FitsEntries schema entries := by
  rw [exists_forall₂_iff, FitsEntries]
  refine forall₂_congr fun e he => ?_
  simp only [exists_fieldForm_iff, hfits e he]

theorem exists_isNormalForm_iff (v : Value) :
    ∀ d : Descriptor, (∃ w, IsNormalForm d v w) ↔ Fits d v := by
  induction v using elements_induction with
  | step v ih =>
      intro d
      cases d with
      | scalar tag =>
          simp only [isNormalForm_scalar, fits_scalar_iff, Coercion.accepts,
            Option.isSome_iff_exists]
      | map schema =>
          rw [fits_map_iff, ← exists_fields_iff fun e he => ih e.2 (snd_mem_elements he)]
          simp only [isNormalForm_map, exists_built_iff]
      | array element =>
          have hitems : (∃ items, List.Forall₂ (IsNormalForm element) v.elements items) ↔
              ∀ x ∈ v.elements, Fits element x := by
            rw [exists_forall₂_iff]
            exact forall₂_congr fun x hx => ih x hx element
          rw [fits_array_iff, ← hitems]
          simp only [isNormalForm_array, exists_built_iff]
      | malformed defect raw => simp [not_isNormalForm_malformed, not_fits_malformed]

theorem exists_normalizeDocument_iff {v : Value} {schema : Schema} :
    (∃ w, normalizeDocument v schema = .ok w) ↔ FitsDocument schema v := by
  rw [FitsDocument, ← exists_fields_iff fun e _ => exists_isNormalForm_iff e.2]
  simp only [normalizeDocument_eq_ok, exists_built_iff]

end Normalization

/-- Validation finds no error exactly if normalization succeeds. -/
theorem validate_without_error_iff_normalizes (mode : ElementPaths) (v : Value)
    (schema : Schema) :
    (¬ ∃ i ∈ Validation.validate mode v schema, i.severity = .error) ↔
      ∃ w, Normalization.normalizeDocument v schema = .ok w := by
  rw [Normalization.exists_normalizeDocument_iff, ← Validation.noErrors_validate mode]
  simp [Validation.NoErrors, Issue.isError]

end SchemaSieve
