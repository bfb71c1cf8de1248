import Mathlib.Data.List.Infix
import SchemaSieve.Issue.Reading
import SchemaSieve.Proofs.DecidableEquality
import SchemaSieve.Proofs.ElementPlaces

/-!
# Issues part by part

Nothing that is found stops the walk, and no part of a document changes what is found in another.
The issues of a document, but for the count of its fields, are those of its fields one after the
other, each field in a document of its own; and the issues of an array, with its elements placed
at the array, are those of the arrays of one element.
-/

namespace SchemaSieve

open Value

namespace Validation

def withoutRootCount (issues : List Issue) : List Issue :=
  issues.filter fun i => !(i.path.isRoot && i.code = .fieldCountMismatch)

variable {mode : ElementPaths} {path : FieldPath} {schema : Schema} {v : Value} {d : Descriptor}
  {e : String × Value} {i : Issue}

/-! ## Fields -/

theorem prefix_of_mem_checkField (h : i ∈ checkField mode path v d) :
    path.segments <+: i.path.segments := by
  have hwalks := walksAlike v path path d
  cases mode with
  | shared =>
      obtain ⟨_, -, -, steps, -, -, hsegments⟩ := exists_mem_left_of_forall₂ hwalks i h
      exact ⟨_, hsegments.symm⟩
  | indexed =>
      obtain ⟨_, -, -, steps, -, hsegments, -⟩ := exists_mem_right_of_forall₂ hwalks i h
      exact ⟨_, hsegments.symm⟩

theorem prefix_of_mem_checkEntry (h : i ∈ checkEntry mode path schema e) :
    (path.child e.1).segments <+: i.path.segments := by
  unfold checkEntry at h
  split at h
  · exact prefix_of_mem_checkField h
  · rw [List.mem_singleton.mp h]

theorem not_isRoot_of_mem_checkEntry (h : i ∈ checkEntry mode path schema e) :
    i.path.isRoot = false := by
  obtain ⟨rest, hsegments⟩ := prefix_of_mem_checkEntry h
  rw [FieldPath.isRoot, ← hsegments, FieldPath.child]
  simp

theorem withoutRootCount_fields (mode : ElementPaths) (schema : Schema)
    (entries : List (String × Value)) :
    withoutRootCount (entries.flatMap (checkEntry mode .root schema)) =
      entries.flatMap (checkEntry mode .root schema) := by
  refine List.filter_eq_self.mpr fun i hi => ?_
  obtain ⟨e, -, hi⟩ := List.mem_flatMap.mp hi
  rw [not_isRoot_of_mem_checkEntry hi]
  rfl

theorem withoutRootCount_checkCount (v : Value) (schema : Schema) :
    withoutRootCount (checkCount .root v schema) = [] := by
  unfold checkCount
  split <;> rfl

theorem withoutRootCount_validate (mode : ElementPaths) (schema : Schema)
    (hv : v.isContainer = true) :
    withoutRootCount (validate mode v schema) =
      v.entries.flatMap (checkEntry mode .root schema) := by
  rw [validate_eq, if_pos hv, withoutRootCount, List.filter_append]
  change withoutRootCount _ ++ withoutRootCount _ = _
  rw [withoutRootCount_checkCount, withoutRootCount_fields, List.nil_append]

/-! ## Elements -/

theorem checkElements_shared (path : FieldPath) (index : Nat) (xs : List Value)
    (d : Descriptor) :
    checkElements .shared path index xs d = xs.flatMap (checkElement .shared path · d) := by
  induction xs generalizing index with
  | nil => rw [checkElements_nil, List.flatMap_nil]
  | cons x xs ih =>
      rw [checkElements_cons, ih, List.flatMap_cons]
      rfl

theorem validate_array (name : String) (d : Descriptor) (xs : List Value) :
    validate .shared (.mapping [(name, .sequence xs)]) [(name, .array d)] =
      xs.flatMap (checkElement .shared (FieldPath.root.child name) · d) := by
  have hentry : checkEntry .shared .root [(name, .array d)] (name, .sequence xs) =
      checkElements .shared (FieldPath.root.child name) 0 xs d := by
    simp [checkEntry, Members.get?, checkField_array, isSequence, elements]
  rw [← checkElements_shared _ 0, ← hentry, validate_eq]
  simp [isContainer, entries, checkCount]

end Validation

open Validation

/-- A document has the issues of its fields, each checked in a document of its own, and the issue
of its count before these.  An array has the issues of its elements, each checked in an array of
its own, when elements are placed at their array. -/
theorem issues_of_parts :
    (∀ (mode : ElementPaths) (v : Value) (schema : Schema), v.isContainer = true →
      validate mode v schema =
          checkCount .root v schema ++ withoutRootCount (validate mode v schema) ∧
        withoutRootCount (validate mode v schema) =
          v.entries.flatMap fun e => withoutRootCount (validate mode (.mapping [e]) schema)) ∧
    ∀ (name : String) (d : Descriptor) (xs : List Value),
      validate .shared (.mapping [(name, .sequence xs)]) [(name, .array d)] =
        xs.flatMap fun x => validate .shared (.mapping [(name, .sequence [x])]) [(name, .array d)] := by
  refine ⟨fun mode v schema hv => ⟨?_, ?_⟩, fun name d xs => ?_⟩
  · rw [withoutRootCount_validate mode schema hv, validate_eq, if_pos hv]
  · have hfield : ∀ e : String × Value,
        withoutRootCount (validate mode (.mapping [e]) schema) = checkEntry mode .root schema e := by
      intro e
      rw [withoutRootCount_validate mode schema rfl]
      exact List.flatMap_singleton _ e
    simp only [hfield, withoutRootCount_validate mode schema hv]
  · simp only [validate_array, List.flatMap_singleton]

theorem issues_of_parts_three_fields :
    let xs : List Value := [.string "x", .integer 1, .null]
    let v : Value := .mapping [("a", .sequence xs), ("b", .string "y"), ("c", .integer 2)]
    let schema : Schema := [("c", .scalar .int), ("a", .array (.scalar .int))]
    validate .indexed v schema = checkCount .root v schema ++
        v.entries.flatMap (fun e => withoutRootCount (validate .indexed (.mapping [e]) schema)) ∧
      (validate .indexed v schema).map (fun i => (i.path.segments, i.code.name)) =
        [([], "field-count-mismatch"), (["a", "0"], "array-element-mismatch"),
          (["a", "2"], "array-element-mismatch"), (["b"], "field-type-not-set")] ∧
      validate .shared (.mapping [("a", .sequence xs)]) [("a", .array (.scalar .int))] =
        xs.flatMap fun x =>
          validate .shared (.mapping [("a", .sequence [x])]) [("a", .array (.scalar .int))] := by
  intro xs v schema
  obtain ⟨hfields, helements⟩ := issues_of_parts
  obtain ⟨hcount, hparts⟩ := hfields .indexed v schema rfl
  rw [hparts] at hcount
  exact ⟨hcount, by decide +kernel, helements "a" (.scalar .int) xs⟩

end SchemaSieve
