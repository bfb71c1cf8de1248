import Mathlib.Logic.Basic
import SchemaSieve.Schema.Descriptor

/-!
# Raw forms of types

A fragment is classified as a type, and a type has a raw form.  The raw form of a
fragment's type is the fragment again, but for the two ways to write a map without fields:
where a map is due, `[100, []]` comes out as `[100, {}]`.  `RawForm` says so of fragments
alone, with one rule for each kind of fragment.

An array is malformed with its element, and a malformed fragment is kept whole, so no rule
goes on below one.
-/

namespace SchemaSieve

namespace Descriptor

/-! ## Fragments of types -/

theorem tagCode_range (tag : ScalarTag) :
    -0x8000000000000000 ≤ tag.code ∧ tag.code < 0x10000000000000000 := by
  cases tag <;> decide

theorem mapCode_range : -0x8000000000000000 ≤ mapCode ∧ mapCode < 0x10000000000000000 := by
  decide

theorem arrayCode_range : -0x8000000000000000 ≤ arrayCode ∧ arrayCode < 0x10000000000000000 := by
  decide

def scalarRaw (tag : ScalarTag) : Json := tagJson tag.code (tagCode_range tag)

def mapRaw (payload : Json) : Json := .array [tagJson mapCode mapCode_range, payload]

def arrayRaw (element : Json) : Json := .array [tagJson arrayCode arrayCode_range, element]

inductive IsType : Json → Prop
  | scalar (tag : ScalarTag) : IsType (scalarRaw tag)
  | map (fields : List (String × Json)) : IsType (mapRaw (.object fields))
  | emptyMap : IsType (mapRaw (.array []))
  | array {element : Json} (wellFormed : IsType element) : IsType (arrayRaw element)

/-- A fragment and the raw form of its type.  The fields of a map go in step, each with its
name, its fragment and its raw form. -/
inductive RawForm : Json → Json → Prop
  | scalar (tag : ScalarTag) : RawForm (scalarRaw tag) (scalarRaw tag)
  | map {fields : List (String × Json × Json)} (forms : ∀ f ∈ fields, RawForm f.2.1 f.2.2) :
      RawForm (mapRaw (.object (fields.map fun f => (f.1, f.2.1))))
        (mapRaw (.object (fields.map fun f => (f.1, f.2.2))))
  | emptyMap : RawForm (mapRaw (.array [])) (mapRaw (.object []))
  | array {element form : Json} (wellFormed : IsType element) (below : RawForm element form) :
      RawForm (arrayRaw element) (arrayRaw form)
  | malformed {raw : Json} (noType : ¬ IsType raw) : RawForm raw raw

theorem eq_tagJson_of_int? {j : Json} {code : Int} (h : j.int? = some code)
    (range : -0x8000000000000000 ≤ code ∧ code < 0x10000000000000000) :
    j = tagJson code range := by
  match j with
  | .number (.integer n _) =>
      cases h
      rfl
  | .number (.float _ _) | .null | .bool _ | .string _ | .array _ | .object _ => cases h

theorem code_eq_of_ofCode? {code : Int} {tag : ScalarTag} (h : ScalarTag.ofCode? code = some tag) :
    tag.code = code := by
  have hfound := List.find?_some h
  exact of_decide_eq_true hfound

theorem classifyFields_eq_map (fields : List (String × Json)) :
    classifyFields fields = fields.map fun f => (f.1, classify f.2) := by
  induction fields with
  | nil => rfl
  | cons f fields ih => rw [classifyFields, ih, List.map_cons]

theorem fieldsJson_eq_map (fields : List (String × Descriptor)) :
    fieldsJson fields = fields.map fun f => (f.1, f.2.toJson) := by
  induction fields with
  | nil => rfl
  | cons f fields ih => rw [fieldsJson, ih, List.map_cons]

/-! ## Classification by the kind of a fragment -/

theorem classify_scalarRaw (tag : ScalarTag) : classify (scalarRaw tag) = .scalar tag := by
  cases tag <;> rfl

theorem classify_mapRaw_object (fields : List (String × Json)) :
    classify (mapRaw (.object fields)) = .map (fields.map fun f => (f.1, classify f.2)) := by
  rw [← classifyFields_eq_map]
  rfl

theorem classify_mapRaw_nil : classify (mapRaw (.array [])) = .map [] := rfl

theorem classify_arrayRaw (element : Json) :
    classify (arrayRaw element) = arrayOf (arrayRaw element) (classify element) := rfl

theorem isWellFormed_classify {raw : Json} (h : IsType raw) :
    (classify raw).isWellFormed = true := by
  induction h with
  | scalar tag => rw [classify_scalarRaw]; rfl
  | map fields => rw [classify_mapRaw_object]; rfl
  | emptyMap => rfl
  | array _ ih => rw [classify_arrayRaw, arrayOf, if_pos ih]; rfl

theorem classify_arrayRaw_of_isType {element : Json} (h : IsType element) :
    classify (arrayRaw element) = .array (classify element) := by
  rw [classify_arrayRaw, arrayOf, if_pos (isWellFormed_classify h)]

theorem classify_of_not_isType {raw : Json} (h : ¬ IsType raw) :
    ∃ defect, classify raw = .malformed defect raw := by
  match raw with
  | .array [kind, payload] =>
      rw [classify]
      split
      · rename_i hkind
        obtain rfl := eq_tagJson_of_int? hkind (by decide)
        match payload with
        | .object fields => exact absurd (.map fields) h
        | .array [] => exact absurd .emptyMap h
        | .array (_ :: _) | .null | .bool _ | .number _ | .string _ => exact ⟨.map, rfl⟩
      · split
        · rename_i hkind
          obtain rfl := eq_tagJson_of_int? hkind (by decide)
          obtain ⟨defect, hpayload⟩ := classify_of_not_isType (mt IsType.array h)
          exact ⟨.array, by rw [hpayload]; rfl⟩
        · exact ⟨.nested, rfl⟩
  | .array [] | .array [_] | .array (_ :: _ :: _ :: _) => exact ⟨.nested, rfl⟩
  | .number n =>
      rw [classify]
      split
      · rename_i tag htag
        obtain ⟨code, hint, hcode⟩ := Option.bind_eq_some_iff.mp htag
        obtain rfl := code_eq_of_ofCode? hcode
        have hraw := eq_tagJson_of_int? hint (by cases tag <;> decide)
        exact absurd (hraw ▸ IsType.scalar tag) h
      · exact ⟨.unknownScalar, rfl⟩
      all_goals simp
  | .null | .bool _ | .string _ | .object _ => exact ⟨.unknownScalar, rfl⟩

theorem eq_of_classify_malformed {raw fragment : Json} {defect : Defect}
    (h : classify raw = .malformed defect fragment) : fragment = raw := by
  have hnone : ¬ IsType raw := by
    intro htype
    have hformed := isWellFormed_classify htype
    rw [h] at hformed
    cases hformed
  obtain ⟨defect', hraw⟩ := classify_of_not_isType hnone
  rw [h] at hraw
  cases hraw
  rfl

theorem sizeOf_field_lt {fields : List (String × Json)} {f : String × Json} (h : f ∈ fields) :
    sizeOf f.2 < sizeOf (mapRaw (.object fields)) := by
  obtain ⟨name, raw⟩ := f
  have hmem := List.sizeOf_lt_of_mem h
  simp only [Prod.mk.sizeOf_spec] at hmem
  simp only [mapRaw, Json.array.sizeOf_spec, List.cons.sizeOf_spec, Json.object.sizeOf_spec]
  omega

theorem sizeOf_element_lt (element : Json) : sizeOf element < sizeOf (arrayRaw element) := by
  simp only [arrayRaw, Json.array.sizeOf_spec, List.cons.sizeOf_spec]
  omega

@[elab_as_elim]
theorem raw_induction {motive : Json → Prop}
    (scalar : ∀ tag, motive (scalarRaw tag))
    (map : ∀ fields : List (String × Json), (∀ f ∈ fields, motive f.2) →
      motive (mapRaw (.object fields)))
    (emptyMap : motive (mapRaw (.array [])))
    (array : ∀ element, IsType element → motive element → motive (arrayRaw element))
    (malformed : ∀ raw, ¬ IsType raw → motive raw) (raw : Json) : motive raw := by
  by_cases h : IsType raw
  · cases h with
    | scalar tag => exact scalar tag
    | map fields =>
        exact map fields fun f hf => raw_induction scalar map emptyMap array malformed f.2
    | emptyMap => exact emptyMap
    | @array element wellFormed =>
        exact array element wellFormed
          (raw_induction scalar map emptyMap array malformed element)
  · exact malformed raw h
termination_by sizeOf raw
decreasing_by
  · exact sizeOf_field_lt hf
  · exact sizeOf_element_lt element

/-! ## The raw form of a fragment's type -/

theorem toJson_map (fields : List (String × Descriptor)) :
    (Descriptor.map fields).toJson =
      mapRaw (.object (fields.map fun f => (f.1, f.2.toJson))) := by
  rw [← fieldsJson_eq_map]
  rfl

theorem rawForm_classify (raw : Json) : RawForm raw (classify raw).toJson := by
  induction raw using raw_induction with
  | scalar tag =>
      rw [classify_scalarRaw]
      exact .scalar tag
  | map fields ih =>
      have hstep : ∀ f ∈ fields.map fun f => (f.1, f.2, (classify f.2).toJson),
          RawForm f.2.1 f.2.2 :=
        List.forall_mem_map.mpr ih
      have hform := RawForm.map hstep
      simp only [List.map_map, Function.comp_def, List.map_id'] at hform
      rw [classify_mapRaw_object, toJson_map, List.map_map]
      exact hform
  | emptyMap => exact .emptyMap
  | array element wellFormed ih =>
      rw [classify_arrayRaw_of_isType wellFormed]
      exact .array wellFormed ih
  | malformed raw noType =>
      obtain ⟨defect, hraw⟩ := classify_of_not_isType noType
      rw [hraw]
      exact .malformed noType

theorem eq_toJson_of_rawForm {raw form : Json} (h : RawForm raw form) :
    form = (classify raw).toJson := by
  induction h with
  | scalar tag =>
      rw [classify_scalarRaw]
      rfl
  | @map fields forms ih =>
      rw [classify_mapRaw_object, toJson_map, List.map_map, List.map_map]
      congr 2
      exact List.map_congr_left fun f hf => Prod.ext rfl (ih f hf)
  | emptyMap => rfl
  | array wellFormed below ih =>
      rw [classify_arrayRaw_of_isType wellFormed, ih]
      rfl
  | malformed noType =>
      obtain ⟨defect, hraw⟩ := classify_of_not_isType noType
      rw [hraw]
      rfl

theorem classify_toJson_classify (raw : Json) : classify (classify raw).toJson = classify raw := by
  induction raw using raw_induction with
  | scalar tag => rw [classify_scalarRaw]; exact classify_scalarRaw tag
  | map fields ih =>
      rw [classify_mapRaw_object, toJson_map, classify_mapRaw_object, List.map_map, List.map_map]
      congr 1
      exact List.map_congr_left fun f hf => Prod.ext rfl (ih f hf)
  | emptyMap => rfl
  | array element wellFormed ih =>
      rw [classify_arrayRaw_of_isType wellFormed]
      change classify (arrayRaw (classify element).toJson) = _
      rw [classify_arrayRaw, ih, arrayOf, if_pos (isWellFormed_classify wellFormed)]
  | malformed raw noType =>
      obtain ⟨defect, hraw⟩ := classify_of_not_isType noType
      rw [hraw]
      exact hraw

/-! ## Types at their places -/

inductive Slot where
  | field (name : String)
  | element

/-- A type stands at a place in another. -/
inductive StandsAt (e : Descriptor) : List Slot → Descriptor → Prop
  | here : StandsAt e [] e
  | field {fields : List (String × Descriptor)} {name : String} {d : Descriptor}
      {place : List Slot} (declared : (name, d) ∈ fields) (below : StandsAt e place d) :
      StandsAt e (.field name :: place) (.map fields)
  | element {d : Descriptor} {place : List Slot} (below : StandsAt e place d) :
      StandsAt e (.element :: place) (.array d)

/-- A fragment stands at a place in another. -/
inductive RawStandsAt (fragment : Json) : List Slot → Json → Prop
  | here : RawStandsAt fragment [] fragment
  | field {fields : List (String × Json)} {name : String} {raw : Json} {place : List Slot}
      (declared : (name, raw) ∈ fields) (below : RawStandsAt fragment place raw) :
      RawStandsAt fragment (.field name :: place) (mapRaw (.object fields))
  | element {raw : Json} {place : List Slot} (below : RawStandsAt fragment place raw) :
      RawStandsAt fragment (.element :: place) (arrayRaw raw)

theorem rawStandsAt_toJson {d e : Descriptor} {place : List Slot} (h : StandsAt e place d) :
    RawStandsAt e.toJson place d.toJson := by
  induction h with
  | here => exact .here
  | @field fields name d place declared below ih =>
      rw [toJson_map]
      exact .field (List.mem_map.mpr ⟨(name, d), declared, rfl⟩) ih
  | element below ih => exact .element ih

theorem exists_field_of_classify {raw : Json} {fields : List (String × Descriptor)}
    {name : String} {d : Descriptor} (h : classify raw = .map fields) (hd : (name, d) ∈ fields) :
    ∃ raws fragment, raw = mapRaw (.object raws) ∧ (name, fragment) ∈ raws ∧
      classify fragment = d := by
  cases raw using raw_induction with
  | scalar tag => simp [classify_scalarRaw] at h
  | map raws =>
      rw [classify_mapRaw_object, Descriptor.map.injEq] at h
      rw [← h] at hd
      obtain ⟨f, hf, hfield⟩ := List.mem_map.mp hd
      cases hfield
      exact ⟨raws, f.2, rfl, hf, rfl⟩
  | emptyMap =>
      rw [classify_mapRaw_nil, Descriptor.map.injEq] at h
      simp [← h] at hd
  | array element wellFormed => simp [classify_arrayRaw_of_isType wellFormed] at h
  | malformed raw noType =>
      obtain ⟨defect, hraw⟩ := classify_of_not_isType noType
      simp [hraw] at h

theorem exists_element_of_classify {raw : Json} {d : Descriptor}
    (h : classify raw = .array d) : ∃ element, raw = arrayRaw element ∧ classify element = d := by
  cases raw using raw_induction with
  | scalar tag => simp [classify_scalarRaw] at h
  | map raws => simp [classify_mapRaw_object] at h
  | emptyMap => simp [classify_mapRaw_nil] at h
  | array element wellFormed =>
      rw [classify_arrayRaw_of_isType wellFormed, Descriptor.array.injEq] at h
      exact ⟨element, rfl, h⟩
  | malformed raw noType =>
      obtain ⟨defect, hraw⟩ := classify_of_not_isType noType
      simp [hraw] at h

theorem exists_fragment_of_standsAt {raw : Json} {e : Descriptor} {place : List Slot}
    (h : StandsAt e place (classify raw)) :
    ∃ fragment, RawStandsAt fragment place raw ∧ classify fragment = e := by
  generalize hd : classify raw = d at h
  induction h generalizing raw with
  | here => exact ⟨raw, .here, hd⟩
  | field declared below ih =>
      obtain ⟨raws, field, rfl, hmem, hfield⟩ := exists_field_of_classify hd declared
      obtain ⟨fragment, hstands, hfragment⟩ := ih hfield
      exact ⟨fragment, .field hmem hstands, hfragment⟩
  | element below ih =>
      obtain ⟨element, rfl, helement⟩ := exists_element_of_classify hd
      obtain ⟨fragment, hstands, hfragment⟩ := ih helement
      exact ⟨fragment, .element hstands, hfragment⟩

end Descriptor

open Descriptor

/-- The raw form of a fragment's type is the fragment, but for maps without fields that are
written as lists.  A malformed fragment, wherever a type is due, comes back as it is at the
place where it stood, and the raw form is of the same type as the fragment. -/
theorem raw_form_of_classified (raw : Json) :
    (∀ form, form = (classify raw).toJson ↔ RawForm raw form) ∧
    (∀ place defect fragment, StandsAt (.malformed defect fragment) place (classify raw) →
      RawStandsAt fragment place raw ∧ RawStandsAt fragment place (classify raw).toJson) ∧
    classify (classify raw).toJson = classify raw := by
  refine ⟨fun form => ⟨?_, eq_toJson_of_rawForm⟩, ?_, classify_toJson_classify raw⟩
  · rintro rfl
    exact rawForm_classify raw
  · intro place defect fragment h
    obtain ⟨found, hstands, hfound⟩ := exists_fragment_of_standsAt h
    obtain rfl := eq_of_classify_malformed hfound
    exact ⟨hstands, rawStandsAt_toJson h⟩

theorem raw_form_of_classified_beside_malformed :
    let kept : Json := arrayRaw (.array [tagJson mapCode (by decide), .array [], .null])
    let raw := arrayRaw (mapRaw (.object [("a", mapRaw (.array [])), ("b", kept)]))
    let form := arrayRaw (mapRaw (.object [("a", mapRaw (.object [])), ("b", kept)]))
    let place : List Slot := [.element, .field "b"]
    StandsAt (.malformed .array kept) place (classify raw) ∧ (classify raw).toJson = form ∧
      RawForm raw form ∧ RawStandsAt kept place raw ∧ RawStandsAt kept place form ∧
      classify form = classify raw := by
  intro kept raw form place
  have hstands : StandsAt (.malformed .array kept) place (classify raw) :=
    .element (.field (List.mem_cons_of_mem _ (List.mem_singleton_self _)) .here)
  have hform : form = (classify raw).toJson := rfl
  obtain ⟨hforms, hkept, hagain⟩ := raw_form_of_classified raw
  rw [hform]
  exact ⟨hstands, rfl, (hforms _).mp rfl, (hkept _ _ _ hstands).1, (hkept _ _ _ hstands).2, hagain⟩

end SchemaSieve
