import SchemaSieve.Proofs.Trees
import SchemaSieve.Validation

/-!
# Issues level by level

The walk of validation taken apart: what is said of one entry, what of one
element, and how a level and an array are made of these.  `NoErrors` picks out
the lists of issues that hold nothing but warnings.
-/

namespace SchemaSieve.Validation

open Value

/-! ## One entry, one element -/

def checkEntry (mode : ElementPaths) (path : FieldPath) (schema : Schema)
    (e : String × Value) : List Issue :=
  match schema.get? e.1 with
  | some d => checkField mode (path.child e.1) e.2 d
  | none => [⟨path.child e.1, .undeclared⟩]

def checkElement (mode : ElementPaths) (place : FieldPath) (v : Value) (d : Descriptor) :
    List Issue :=
  match d with
  | .scalar tag => checkScalar place v tag .elementMismatch
  | d => checkField mode place v d

theorem checkEntries_eq_flatMap (mode : ElementPaths) (path : FieldPath)
    (entries : List (String × Value)) (schema : Schema) :
    checkEntries mode path entries schema = entries.flatMap (checkEntry mode path schema) := by
  induction entries with
  | nil => rw [checkEntries, List.flatMap_nil]
  | cons e entries ih =>
      rw [checkEntries, ih, List.flatMap_cons]
      rfl

@[simp] theorem checkElements_nil (mode : ElementPaths) (path : FieldPath) (index : Nat)
    (d : Descriptor) : checkElements mode path index [] d = [] := by
  rw [checkElements]

theorem checkElements_cons (mode : ElementPaths) (path : FieldPath) (index : Nat) (v : Value)
    (elements : List Value) (d : Descriptor) :
    checkElements mode path index (v :: elements) d =
      checkElement mode (elementPath mode path index) v d ++
        checkElements mode path (index + 1) elements d := by
  cases d <;> simp only [checkElements, checkElement]

/-! ## Fields of each type -/

theorem checkField_scalar (mode : ElementPaths) (path : FieldPath) (v : Value)
    (tag : ScalarTag) :
    checkField mode path v (.scalar tag) = checkScalar path v tag .valueMismatch := by
  rw [checkField]

theorem checkField_map (mode : ElementPaths) (path : FieldPath) (v : Value)
    (schema : Schema) :
    checkField mode path v (.map schema) =
      if v.isMapping then
        checkCount path v schema ++ v.entries.flatMap (checkEntry mode path schema)
      else [⟨path, .valueMismatch v "MAP"⟩] := by
  rw [checkField, checkEntries_eq_flatMap]

theorem checkField_array (mode : ElementPaths) (path : FieldPath) (v : Value)
    (element : Descriptor) :
    checkField mode path v (.array element) =
      if v.isSequence then checkElements mode path 0 v.elements element
      else [⟨path, .valueMismatch v "ARRAY"⟩] := by
  rw [checkField]

theorem checkField_malformed (mode : ElementPaths) (path : FieldPath) (v : Value)
    (defect : Defect) (raw : Json) :
    checkField mode path v (.malformed defect raw) = [⟨path, .malformed defect raw⟩] := by
  rw [checkField]

theorem validate_eq (mode : ElementPaths) (v : Value) (schema : Schema) :
    validate mode v schema =
      if v.isContainer then
        checkCount .root v schema ++ v.entries.flatMap (checkEntry mode .root schema)
      else [⟨.root, .valueMismatch v "MAP"⟩] := by
  rw [validate, checkEntries_eq_flatMap]

/-! ## Lists without errors -/

def NoErrors (issues : List Issue) : Prop := ∀ i ∈ issues, i.isError = false

@[simp] theorem noErrors_nil : NoErrors [] := by
  simp [NoErrors]

@[simp] theorem noErrors_append {is js : List Issue} :
    NoErrors (is ++ js) ↔ NoErrors is ∧ NoErrors js :=
  List.forall_mem_append

@[simp] theorem noErrors_singleton {i : Issue} : NoErrors [i] ↔ i.isError = false := by
  simp [NoErrors]

@[simp] theorem noErrors_flatMap {α : Type} {xs : List α} {f : α → List Issue} :
    NoErrors (xs.flatMap f) ↔ ∀ x ∈ xs, NoErrors (f x) := by
  simp only [NoErrors, List.mem_flatMap]
  constructor
  · intro h x hx i hi
    exact h i ⟨x, hx, hi⟩
  · rintro h i ⟨x, hx, hi⟩
    exact h x hx i hi

theorem noErrors_iff_any {issues : List Issue} :
    NoErrors issues ↔ issues.any (·.isError) = false := by
  simp [NoErrors]

theorem isError_malformed (path : FieldPath) (defect : Defect) (raw : Json) :
    Issue.isError ⟨path, .malformed defect raw⟩ = true := by
  cases defect <;> rfl

@[simp] theorem noErrors_checkCount (path : FieldPath) (v : Value) (schema : Schema) :
    NoErrors (checkCount path v schema) := by
  unfold checkCount
  split
  · exact noErrors_nil
  · exact noErrors_singleton.mpr rfl

theorem noErrors_checkScalar {path : FieldPath} {v : Value} {tag : ScalarTag}
    {problem : Value → String → Problem}
    (herror : Issue.isError ⟨path, problem v tag.name⟩ = true) :
    NoErrors (checkScalar path v tag problem) ↔ Coercion.accepts tag v = true := by
  unfold checkScalar
  split
  · simp_all
  · simp_all

end SchemaSieve.Validation
