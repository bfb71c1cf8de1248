import Mathlib.Tactic.ByContra
import SchemaSieve.Proofs.DecidableEquality
import SchemaSieve.Proofs.RawForms
import SchemaSieve.Proofs.SchemaTexts

/-!
# The grammar of types

A fragment is a type if the grammar `D ::= 0 | 1 | 2 | 3 | [100, object] | [100, []] | [101, D]`
derives it; a number is a tag as an integer alone, never as a double.  Every other fragment
misses the grammar in one way, and is kept whole with it.

An array asks for the type of its element and a map does not ask for those of its fields.  So
the elements of arrays are well formed wherever an array stands, below a map as well, and a map
may hold malformed fields.
-/

namespace SchemaSieve

namespace Descriptor

/-! ## Derivations -/

inductive Derivable : Json → Prop
  | scalar {n : Int} (range : -0x8000000000000000 ≤ n ∧ n < 0x10000000000000000)
      (code : 0 ≤ n ∧ n ≤ 3) : Derivable (tagJson n range)
  | map (fields : List (String × Json)) :
      Derivable (.array [tagJson 100 (by decide), .object fields])
  | emptyMap : Derivable (.array [tagJson 100 (by decide), .array []])
  | array {element : Json} (derived : Derivable element) :
      Derivable (.array [tagJson 101 (by decide), element])

/-- The ways in which a fragment that the grammar does not derive misses it. -/
inductive Misses : Defect → Json → Prop
  | map {payload : Json} (noObject : ∀ fields, payload ≠ .object fields)
      (notEmpty : payload ≠ .array []) :
      Misses .map (.array [tagJson 100 (by decide), payload])
  | array {payload : Json} (underivable : ¬ Derivable payload) :
      Misses .array (.array [tagJson 101 (by decide), payload])
  | nested {xs : List Json} (noMap : ∀ payload, xs ≠ [tagJson 100 (by decide), payload])
      (noArray : ∀ payload, xs ≠ [tagJson 101 (by decide), payload]) : Misses .nested (.array xs)
  | unknownScalar {raw : Json} (notList : ∀ xs, raw ≠ .array xs) (underivable : ¬ Derivable raw) :
      Misses .unknownScalar raw

theorem exists_code_eq {n : Int} (h : 0 ≤ n ∧ n ≤ 3) : ∃ tag : ScalarTag, tag.code = n := by
  obtain rfl | rfl | rfl | rfl : n = 0 ∨ n = 1 ∨ n = 2 ∨ n = 3 := by omega
  · exact ⟨.int, rfl⟩
  · exact ⟨.float, rfl⟩
  · exact ⟨.string, rfl⟩
  · exact ⟨.phone, rfl⟩

theorem derivable_iff_isType {raw : Json} : Derivable raw ↔ IsType raw := by
  constructor
  · intro h
    induction h with
    | scalar range code =>
        obtain ⟨tag, rfl⟩ := exists_code_eq code
        exact .scalar tag
    | map fields => exact .map fields
    | emptyMap => exact .emptyMap
    | array _ ih => exact .array ih
  · intro h
    induction h with
    | scalar tag => exact .scalar (tagCode_range tag) (by cases tag <;> decide)
    | map fields => exact .map fields
    | emptyMap => exact .emptyMap
    | array _ ih => exact .array ih

theorem isWellFormed_classify_iff {raw : Json} :
    (classify raw).isWellFormed = true ↔ Derivable raw := by
  rw [derivable_iff_isType]
  refine ⟨fun h => ?_, isWellFormed_classify⟩
  by_contra htype
  obtain ⟨defect, hraw⟩ := classify_of_not_isType htype
  rw [hraw] at h
  cases h

/-! ## Fragments that are not derived -/

theorem classify_mapRaw_of_ne {payload : Json} (noObject : ∀ fields, payload ≠ .object fields)
    (notEmpty : payload ≠ .array []) :
    classify (mapRaw payload) = .malformed .map (mapRaw payload) := by
  cases payload with
  | object fields => exact absurd rfl (noObject fields)
  | array xs =>
      cases xs with
      | nil => exact absurd rfl notEmpty
      | cons x xs => rfl
  | _ => rfl

theorem classify_arrayRaw_of_not_isType {payload : Json} (h : ¬ IsType payload) :
    classify (arrayRaw payload) = .malformed .array (arrayRaw payload) := by
  obtain ⟨defect, hpayload⟩ := classify_of_not_isType h
  rw [classify_arrayRaw, hpayload]
  rfl

theorem classify_list_of_ne {xs : List Json} (noMap : ∀ payload, .array xs ≠ mapRaw payload)
    (noArray : ∀ payload, .array xs ≠ arrayRaw payload) :
    classify (.array xs) = .malformed .nested (.array xs) := by
  obtain _ | ⟨kind, _ | ⟨payload, _ | ⟨third, rest⟩⟩⟩ := xs
  · rfl
  · rfl
  · have hmap : kind.int? ≠ some mapCode := fun hkind =>
      noMap payload (by rw [eq_tagJson_of_int? hkind mapCode_range, mapRaw])
    have harray : kind.int? ≠ some arrayCode := fun hkind =>
      noArray payload (by rw [eq_tagJson_of_int? hkind arrayCode_range, arrayRaw])
    rw [classify, if_neg hmap, if_neg harray]
  · rfl

theorem classify_number_of_not_isType {n : Number} (h : ¬ IsType (.number n)) :
    classify (.number n) = .malformed .unknownScalar (.number n) := by
  rw [classify]
  · split
    next tag htag =>
      obtain ⟨code, hint, hcode⟩ := Option.bind_eq_some_iff.mp htag
      obtain rfl := code_eq_of_ofCode? hcode
      have hraw := eq_tagJson_of_int? hint (tagCode_range tag)
      exact absurd (hraw ▸ IsType.scalar tag) h
    next => rfl
  all_goals simp

theorem classify_of_misses {raw : Json} {defect : Defect} (h : Misses defect raw) :
    classify raw = .malformed defect raw := by
  cases h with
  | map noObject notEmpty => exact classify_mapRaw_of_ne noObject notEmpty
  | array underivable =>
      exact classify_arrayRaw_of_not_isType (mt derivable_iff_isType.mpr underivable)
  | nested noMap noArray =>
      exact classify_list_of_ne (fun payload heq => noMap payload (Json.array.inj heq))
        fun payload heq => noArray payload (Json.array.inj heq)
  | unknownScalar notList underivable =>
      cases raw with
      | array xs => exact absurd rfl (notList xs)
      | number n => exact classify_number_of_not_isType (mt derivable_iff_isType.mpr underivable)
      | _ => rfl

theorem exists_misses {raw : Json} (h : ¬ Derivable raw) : ∃ defect, Misses defect raw := by
  by_cases hlist : ∃ xs, raw = .array xs
  · obtain ⟨xs, rfl⟩ := hlist
    by_cases hmap : ∃ payload, xs = [tagJson 100 (by decide), payload]
    · obtain ⟨payload, rfl⟩ := hmap
      refine ⟨.map, .map ?_ ?_⟩
      · rintro fields rfl
        exact h (.map fields)
      · rintro rfl
        exact h .emptyMap
    by_cases harray : ∃ payload, xs = [tagJson 101 (by decide), payload]
    · obtain ⟨payload, rfl⟩ := harray
      exact ⟨.array, .array fun hpayload => h (.array hpayload)⟩
    · exact ⟨.nested, .nested (not_exists.mp hmap) (not_exists.mp harray)⟩
  · exact ⟨.unknownScalar, .unknownScalar (not_exists.mp hlist) h⟩

theorem classify_eq_malformed_iff {raw fragment : Json} {defect : Defect} :
    classify raw = .malformed defect fragment ↔ Misses defect raw ∧ fragment = raw := by
  constructor
  · intro h
    have hraw : ¬ Derivable raw := fun hderived => by
      have hformed := isWellFormed_classify_iff.mpr hderived
      rw [h] at hformed
      cases hformed
    obtain ⟨defect', hmisses⟩ := exists_misses hraw
    have hclassify := classify_of_misses hmisses
    rw [h] at hclassify
    cases hclassify
    exact ⟨hmisses, rfl⟩
  · rintro ⟨hmisses, rfl⟩
    exact classify_of_misses hmisses

/-! ## Elements of arrays -/

/-- No array in a type, at any place, has a malformed element. -/
def ElementsFormed (d : Descriptor) : Prop :=
  ∀ place element, StandsAt (.array element) place d → element.isWellFormed = true

theorem isWellFormed_of_classify_array {raw : Json} {element : Descriptor}
    (h : classify raw = .array element) : element.isWellFormed = true := by
  obtain ⟨fragment, rfl, rfl⟩ := exists_element_of_classify h
  by_contra hformed
  rw [classify_arrayRaw, arrayOf, if_neg hformed] at h
  cases h

theorem elementsFormed_classify (raw : Json) : ElementsFormed (classify raw) := by
  intro place element h
  obtain ⟨fragment, -, hfragment⟩ := exists_fragment_of_standsAt h
  exact isWellFormed_of_classify_array hfragment

theorem elementsFormed_of_ofJson {raw : Json} {schema : Schema}
    (h : Schema.ofJson raw = .ok schema) : ElementsFormed (.map schema) := by
  obtain ⟨fields, -, rfl⟩ := Schema.ofJson_eq_ok_iff.mp h
  exact elementsFormed_classify (mapRaw (.object fields))

end Descriptor

open Descriptor

/-- Classification accepts the fragments that the grammar derives, and keeps any other whole
with the way it misses the grammar.  The elements of arrays are well formed at every place of a
type or a schema.  The fields of a map or a schema are classified one by one. -/
theorem classified_by_grammar (raw : Json) :
    ((classify raw).isWellFormed = true ↔ Derivable raw) ∧
    (∀ defect fragment,
      classify raw = .malformed defect fragment ↔ Misses defect raw ∧ fragment = raw) ∧
    ElementsFormed (classify raw) ∧
    (∀ schema : Schema, Schema.ofJson raw = .ok schema → ElementsFormed (.map schema)) ∧
    (∀ source (schema : Schema), Schema.read source = .ok schema →
      ElementsFormed (.map schema)) ∧
    (∀ fields, classify (.array [tagJson 100 (by decide), .object fields]) =
      .map (fields.map fun f => (f.1, classify f.2))) ∧
    (∀ fields, Schema.ofJson (.object fields) =
      .ok (fields.map fun f => (f.1, classify f.2))) := by
  refine ⟨isWellFormed_classify_iff, fun defect fragment => classify_eq_malformed_iff,
    elementsFormed_classify raw, fun schema => elementsFormed_of_ofJson,
    fun source schema h => ?_, classify_mapRaw_object, fun fields => ?_⟩
  · obtain ⟨j, -, -, hj⟩ := Schema.read_eq_ok_iff.mp h
    exact elementsFormed_of_ofJson hj
  · rw [Schema.ofJson, classifyFields_eq_map]

theorem classified_by_grammar_nested_array :
    let double : Json := .number (.float ⟨0x3ff0000000000000⟩ rfl)
    let kept : Json := .string "int"
    let raw : Json := .object [("a", .array [tagJson 101 (by decide),
      .array [tagJson 100 (by decide), .object [("b", kept)]]]),
      ("c", .array [tagJson 101 (by decide), kept])]
    let text := "\x7b\"a\":[101,[100,\x7b\"b\":\"int\"\x7d]],\"c\":[101,\"int\"]\x7d"
    let schema : Schema := [("a", .array (.map [("b", .malformed .unknownScalar kept)])),
      ("c", .malformed .array (.array [tagJson 101 (by decide), kept]))]
    ¬ Derivable double ∧ Schema.ofJson raw = .ok schema ∧
      Schema.read (bytesOf text) = .ok schema ∧ ElementsFormed (.map schema) := by
  intro double kept raw text schema
  have hraw : Schema.ofJson raw = .ok schema := rfl
  have hread : Schema.read (bytesOf text) = .ok schema := by decide +kernel
  obtain ⟨hderived, -⟩ := classified_by_grammar double
  obtain ⟨-, -, -, hformed, -⟩ := classified_by_grammar raw
  refine ⟨?_, hraw, hread, hformed schema hraw⟩
  rw [← hderived]
  exact Bool.false_ne_true

end SchemaSieve
