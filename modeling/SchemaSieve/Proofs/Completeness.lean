import SchemaSieve.Proofs.Conforming
import SchemaSieve.Proofs.DecidableEquality
import SchemaSieve.Proofs.Names
import SchemaSieve.Proofs.Policies

/-!
# Closed and complete levels

A level is only ever checked for undeclared names and for a wrong count.  Where its
names are distinct that is enough: a level without issues has exactly the names that
are declared.  So whatever passes while warnings are rejected has every declared field
and no other, at the root and at every map below it.
-/

namespace SchemaSieve

open Value Validation Normalization

/-- Every map in a value of a type has exactly the names its schema declares. -/
inductive Complete : Descriptor → Value → Prop
  | scalar {tag : ScalarTag} {w : Value} (leaf : w.isContainer = false) :
      Complete (.scalar tag) w
  | map {schema : Schema} {fields : List (String × Value)}
      (names : ∀ name, name ∈ Members.names fields ↔ name ∈ schema.names)
      (values : ∀ f ∈ fields, ∀ d, schema.get? f.1 = some d → Complete d f.2) :
      Complete (.map schema) (.mapping fields)
  | array {element : Descriptor} {items : List Value}
      (elements : ∀ x ∈ items, Complete element x) : Complete (.array element) (.sequence items)

def CompleteDocument (schema : Schema) (w : Value) : Prop :=
  w.isContainer = true ∧
    (∀ name, name ∈ Members.names w.entries ↔ name ∈ schema.names) ∧
    ∀ e ∈ w.entries, ∀ d, schema.get? e.1 = some d → Complete d e.2

/-! ## Levels without issues -/

namespace Validation

theorem checkCount_eq_nil_iff {p : FieldPath} {v : Value} {schema : Schema} :
    checkCount p v schema = [] ↔ v.entries.length = schema.length := by
  unfold checkCount
  split <;> simp_all

theorem checkElement_eq_nil_iff {mode : ElementPaths} {p : FieldPath} {v : Value}
    {d : Descriptor} : checkElement mode p v d = [] ↔ checkField mode p v d = [] := by
  cases d with
  | scalar tag =>
      simp only [checkElement, checkField_scalar, checkScalar]
      split <;> simp
  | _ => rfl

theorem checkField_eq_nil_of_checkElements {mode : ElementPaths} {p : FieldPath} {index : Nat}
    {xs : List Value} {d : Descriptor} (h : checkElements mode p index xs d = []) :
    ∀ x ∈ xs, ∃ p, checkField mode p x d = [] := by
  induction xs generalizing index with
  | nil => simp
  | cons x xs ih =>
      rw [checkElements_cons, List.append_eq_nil_iff, checkElement_eq_nil_iff] at h
      exact List.forall_mem_cons.mpr ⟨⟨_, h.1⟩, ih h.2⟩

theorem checkField_eq_nil_of_checkEntry {mode : ElementPaths} {p : FieldPath}
    {schema : Schema} {e : String × Value} {d : Descriptor}
    (h : checkEntry mode p schema e = []) (hd : schema.get? e.1 = some d) :
    checkField mode (p.child e.1) e.2 d = [] := by
  simpa [checkEntry, hd] using h

end Validation

theorem mem_names_iff_of_fields {schema : Schema} {v : Value} {fields : List (String × Value)}
    (hnodup : (Members.names v.entries).Nodup)
    (hfields : List.Forall₂ (FieldForm schema) v.entries fields)
    (hcount : v.entries.length = schema.length) (name : String) :
    name ∈ Members.names fields ↔ name ∈ schema.names := by
  have hdeclared : ∀ name ∈ Members.names v.entries, name ∈ schema.names := by
    intro name hname
    obtain ⟨e, he, rfl⟩ := List.mem_map.mp hname
    obtain ⟨f, -, -, d, hd, -⟩ := exists_mem_right_of_forall₂ hfields e he
    exact Members.mem_names_of_get? hd
  rw [names_of_fieldForm hfields]
  exact (Members.perm_names_of_length_eq hnodup hdeclared hcount).mem_iff

theorem complete_of_isNormalForm {mode : ElementPaths} {d : Descriptor} {v w : Value}
    (h : IsNormalForm d v w) :
    ∀ p, v.DistinctNames → checkField mode p v d = [] → Complete d w := by
  induction h using IsNormalForm.induction with
  | scalar tag v w h hcoerce =>
      intro p hdistinct hnone
      exact .scalar (isContainer_of_isCanonical (Coercion.isCanonical_of_coerce? hcoerce))
  | map schema v fields h hshape hfields =>
      intro p hdistinct hnone
      rw [checkField_map, if_pos hshape, List.append_eq_nil_iff, checkCount_eq_nil_iff,
        List.flatMap_eq_nil_iff] at hnone
      obtain ⟨hnodup, hvalues⟩ := hdistinct.entries
      have hform : List.Forall₂ (FieldForm schema) v.entries fields := by
        refine hfields.imp ?_
        rintro e f ⟨hname, d, hd, hform, -⟩
        exact ⟨hname, d, hd, hform⟩
      refine .map (mem_names_iff_of_fields hnodup hform hnone.1) fun f hf d hd => ?_
      obtain ⟨e, he, hname, d', hd', -, ih⟩ := exists_mem_left_of_forall₂ hfields f hf
      rw [hname, hd'] at hd
      cases hd
      exact ih (p.child e.1) (hvalues e.2 (snd_mem_elements he))
        (checkField_eq_nil_of_checkEntry (hnone.2 e he) hd')
  | array element v items h hshape hitems =>
      intro p hdistinct hnone
      rw [checkField_array, if_pos hshape] at hnone
      refine .array fun y hy => ?_
      obtain ⟨x, hx, -, ih⟩ := exists_mem_left_of_forall₂ hitems y hy
      obtain ⟨q, hq⟩ := checkField_eq_nil_of_checkElements hnone x hx
      exact ih q (hdistinct.entries.2 x hx) hq

theorem completeDocument_of_validate {mode : ElementPaths} {v w : Value} {schema : Schema}
    (hdistinct : v.DistinctNames) (hnormal : normalizeDocument v schema = .ok w)
    (hnone : validate mode v schema = []) : CompleteDocument schema w := by
  obtain ⟨hcontainer, hcontainer', hfields⟩ := fields_of_normalizeDocument hnormal
  rw [validate_eq, if_pos hcontainer, List.append_eq_nil_iff, checkCount_eq_nil_iff,
    List.flatMap_eq_nil_iff] at hnone
  obtain ⟨hnodup, hvalues⟩ := hdistinct.entries
  refine ⟨hcontainer', mem_names_iff_of_fields hnodup hfields hnone.1, fun f hf d hd => ?_⟩
  obtain ⟨e, he, hname, d', hd', hform⟩ := exists_mem_left_of_forall₂ hfields f hf
  rw [hname, hd'] at hd
  cases hd
  exact complete_of_isNormalForm hform _ (hvalues e.2 (snd_mem_elements he))
    (checkField_eq_nil_of_checkEntry (hnone.2 e he) hd')

theorem completeDocument_of_sanitizeValue {o : Options} {v : Value} {schema : Schema}
    {r : Sanitized} (hreject : o.warnings = .reject) (hdistinct : v.DistinctNames)
    (h : sanitizeValue o v schema = .ok r) : CompleteDocument schema r.value := by
  obtain ⟨-, hnormal, hwarnings, hnone⟩ := sanitizeValue_eq_ok_iff.mp h
  exact completeDocument_of_validate hdistinct hnormal (hwarnings ▸ hnone hreject)

/-- What passes while warnings are rejected has exactly the declared fields, at the root
and at every map below it.  A tree has to have distinct names for that; a text always
decodes to such a tree. -/
theorem complete_of_rejected_warnings {o : Options} (hreject : o.warnings = .reject)
    (schema : Schema) (r : Sanitized) :
    (∀ v : Value, v.DistinctNames → sanitizeValue o v schema = .ok r →
      CompleteDocument schema r.value) ∧
    ∀ text, sanitize o text schema = .ok r → CompleteDocument schema r.value := by
  refine ⟨fun v => completeDocument_of_sanitizeValue hreject, fun text h => ?_⟩
  obtain ⟨v, hdecode, hrun⟩ := sanitize_eq_ok_iff.mp h
  exact completeDocument_of_sanitizeValue hreject (distinctNames_of_decode hdecode) hrun

theorem complete_of_rejected_warnings_nested_maps :
    let o : Options := {}
    let text :=
      "\x7b\"n\":\"1e1\",\"rows\":\x7b\"0\":\x7b\"x\":2\x7d,\"1\":\x7b\"x\":\"7\"\x7d\x7d\x7d"
    let v : Value := .mapping [("n", .string "1e1"),
      ("rows", .mapping [("0", .mapping [("x", .integer 2)]), ("1", .mapping [("x", .string "7")])])]
    let schema : Schema :=
      [("rows", .array (.map [("x", .scalar .string)])), ("n", .scalar .int)]
    let r : Sanitized := ⟨.mapping [("n", .integer 10),
      ("rows", .sequence [.mapping [("x", .string "2")], .mapping [("x", .string "7")]])], []⟩
    v.DistinctNames ∧ sanitizeValue o v schema = .ok r ∧ sanitize o text schema = .ok r ∧
      CompleteDocument schema r.value := by
  intro o text v schema r
  have hdecode : Value.decode text = .ok v := by decide +kernel
  have hdistinct : v.DistinctNames := distinctNames_of_decode hdecode
  have hrun : sanitizeValue o v schema = .ok r := by decide +kernel
  have hread : sanitize o text schema = .ok r := by decide +kernel
  have hcomplete := (complete_of_rejected_warnings (o := o) rfl schema r).1 v hdistinct hrun
  exact ⟨hdistinct, hrun, hread, hcomplete⟩

end SchemaSieve
