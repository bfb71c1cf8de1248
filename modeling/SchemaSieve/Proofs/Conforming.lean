import SchemaSieve.Proofs.CanonicalScalars
import SchemaSieve.Proofs.DecidableEquality
import SchemaSieve.Proofs.NormalForm
import SchemaSieve.Sanitizer

/-!
# Trees that conform to their types

`Conforms d w` is the shape of a normal form said without any walk: canonical
scalars, mappings for maps and sequences for arrays, at every depth.  Normal
forms conform, and what conforms is its own normal form.
-/

namespace SchemaSieve

open Value Normalization Coercion

/-- A value has exactly the form its type declares. -/
inductive Conforms : Descriptor → Value → Prop
  | scalar {tag : ScalarTag} {w : Value} (canonical : IsCanonical tag w) :
      Conforms (.scalar tag) w
  | map {schema : Schema} {fields : List (String × Value)}
      (shape : fields = [] ∨ indexedFrom 0 fields = false)
      (declared : ∀ f ∈ fields, ∃ d, schema.get? f.1 = some d)
      (conforming : ∀ f ∈ fields, ∀ d, schema.get? f.1 = some d → Conforms d f.2) :
      Conforms (.map schema) (.mapping fields)
  | array {element : Descriptor} {items : List Value}
      (conforming : ∀ x ∈ items, Conforms element x) :
      Conforms (.array element) (.sequence items)

def ConformsEntries (schema : Schema) (entries : List (String × Value)) : Prop :=
  ∀ e ∈ entries, ∃ d, schema.get? e.1 = some d ∧ Conforms d e.2

def ConformsDocument (schema : Schema) (w : Value) : Prop :=
  w.isContainer = true ∧ ConformsEntries schema w.entries

theorem isMapping_mapping_iff {fields : List (String × Value)} :
    (Value.mapping fields).isMapping = true ↔ fields = [] ∨ indexedFrom 0 fields = false := by
  simp [isMapping]

theorem conforms_map_iff {schema : Schema} {fields : List (String × Value)} :
    Conforms (.map schema) (.mapping fields) ↔
      (Value.mapping fields).isMapping = true ∧ ConformsEntries schema fields := by
  rw [isMapping_mapping_iff, ConformsEntries, ← declared_and_iff]
  constructor
  · intro h
    cases h with
    | map shape declared conforming => exact ⟨shape, declared, conforming⟩
  · rintro ⟨shape, declared, conforming⟩
    exact .map shape declared conforming

/-! ## Normal forms conform -/

theorem isMapping_of_names {v : Value} {fields : List (String × Value)}
    (hshape : v.isMapping = true)
    (hnames : Members.names fields = Members.names v.entries) :
    (Value.mapping fields).isMapping = true := by
  rw [isMapping_mapping_iff]
  cases v with
  | sequence xs =>
      have hnil : xs = [] := by simpa [isMapping] using hshape
      subst hnil
      exact .inl (List.map_eq_nil_iff.mp hnames)
  | mapping ms =>
      rcases isMapping_mapping_iff.mp hshape with rfl | hkeys
      · exact .inl (List.map_eq_nil_iff.mp hnames)
      · exact .inr (indexedFrom_congr 0 hnames ▸ hkeys)
  | _ => simp [isMapping] at hshape

theorem conforms_of_isNormalForm {d : Descriptor} {v w : Value} (h : IsNormalForm d v w) :
    Conforms d w := by
  induction h using IsNormalForm.induction with
  | scalar tag v w h hcoerce => exact .scalar (isCanonical_of_coerce? hcoerce)
  | map schema v fields h hshape hfields =>
      have hmapping := isMapping_of_names hshape (names_of_isNormalForm_map h)
      refine conforms_map_iff.mpr ⟨hmapping, fun f hf => ?_⟩
      obtain ⟨e, -, hname, d, hd, -, hconforms⟩ := exists_mem_left_of_forall₂ hfields f hf
      exact ⟨d, hname ▸ hd, hconforms⟩
  | array element v items h hshape hitems =>
      refine .array fun y hy => ?_
      obtain ⟨x, -, -, hconforms⟩ := exists_mem_left_of_forall₂ hitems y hy
      exact hconforms

theorem isNormalForm_of_conforms {d : Descriptor} {w : Value} (h : Conforms d w) :
    IsNormalForm d w w := by
  induction h with
  | scalar canonical => exact isNormalForm_scalar.mpr (coerce?_of_isCanonical canonical)
  | map shape declared conforming ih =>
      refine isNormalForm_map.mpr ⟨isMapping_mapping_iff.mpr shape, _, ?_, rfl⟩
      refine List.forall₂_same.mpr fun f hf => ?_
      obtain ⟨d, hd⟩ := declared f hf
      exact ⟨rfl, d, hd, ih f hf d hd⟩
  | array conforming ih =>
      exact isNormalForm_array.mpr ⟨rfl, _, List.forall₂_same.mpr ih, rfl⟩

theorem conformsDocument_of_normalizeDocument {v w : Value} {schema : Schema}
    (h : normalizeDocument v schema = .ok w) : ConformsDocument schema w := by
  obtain ⟨-, hcontainer, hfields⟩ := fields_of_normalizeDocument h
  refine ⟨hcontainer, fun f hf => ?_⟩
  obtain ⟨e, -, hname, d, hd, hform⟩ := exists_mem_left_of_forall₂ hfields f hf
  exact ⟨d, hname ▸ hd, conforms_of_isNormalForm hform⟩

theorem normalizeDocument_of_conformsDocument {w : Value} {schema : Schema}
    (h : ConformsDocument schema w) (hroot : w ≠ .sequence []) :
    normalizeDocument w schema = .ok w := by
  obtain ⟨hcontainer, hentries⟩ := h
  refine normalizeDocument_eq_ok.mpr
    ⟨hcontainer, w.entries, ?_, (rebuild_entries hcontainer hroot).symm⟩
  refine List.forall₂_same.mpr fun f hf => ?_
  obtain ⟨d, hd, hconforms⟩ := hentries f hf
  exact ⟨rfl, d, hd, isNormalForm_of_conforms hconforms⟩

theorem ne_sequence_nil_of_normalizeDocument {v w : Value} {schema : Schema}
    (h : normalizeDocument v schema = .ok w) : w ≠ .sequence [] := by
  obtain ⟨-, fields, hfields, rfl⟩ := normalizeDocument_eq_ok.mp h
  exact rebuild_ne_sequence_nil (names_of_fieldForm hfields)

theorem normalizeDocument_normal {v w : Value} {schema : Schema}
    (h : normalizeDocument v schema = .ok w) : normalizeDocument w schema = .ok w :=
  normalizeDocument_of_conformsDocument (conformsDocument_of_normalizeDocument h)
    (ne_sequence_nil_of_normalizeDocument h)

/-! ## Leaves -/

theorem isContainer_of_coerce? {tag : ScalarTag} {v w : Value}
    (h : coerce? tag v = some w) : v.isContainer = false := by
  cases v with
  | sequence xs => cases tag <;> cases h
  | mapping ms => cases tag <;> cases h
  | _ => rfl

theorem isContainer_of_isCanonical {tag : ScalarTag} {w : Value} (h : IsCanonical tag w) :
    w.isContainer = false := by
  cases h <;> rfl

theorem leaves_of_conforms {d : Descriptor} {w : Value} (h : Conforms d w) :
    ∀ x ∈ w.leaves, ∃ tag, IsCanonical tag x := by
  induction h with
  | scalar canonical =>
      rw [leaves_of_not_container (isContainer_of_isCanonical canonical)]
      exact List.forall_mem_singleton.mpr ⟨_, canonical⟩
  | map shape declared conforming ih =>
      rw [forall_mem_leaves_iff rfl]
      intro x hx
      obtain ⟨f, hf, rfl⟩ := List.mem_map.mp hx
      obtain ⟨d, hd⟩ := declared f hf
      exact ih f hf d hd
  | array conforming ih =>
      rw [forall_mem_leaves_iff rfl]
      exact ih

theorem leaves_of_conformsDocument {schema : Schema} {w : Value}
    (h : ConformsDocument schema w) : ∀ x ∈ w.leaves, ∃ tag, IsCanonical tag x := by
  rw [forall_mem_leaves_iff h.1, elements_eq_map_entries]
  intro x hx
  obtain ⟨e, he, rfl⟩ := List.mem_map.mp hx
  obtain ⟨d, -, hconforms⟩ := h.2 e he
  exact leaves_of_conforms hconforms

/-! ## One form for each integer -/

/-- No unsigned leaf has a place in the signed range. -/
def Value.UnsignedAreLarge (v : Value) : Prop :=
  ∀ x ∈ v.leaves, ∀ u : UInt64, x = .unsigned u → Int64.maxValue.toInt < u.toNat

def Value.integer? : Value → Option Int
  | .integer i => some i.toInt
  | .unsigned u => some u.toNat
  | _ => none

theorem toInt_ne_of_large {i : Int64} {u : UInt64} (h : Int64.maxValue.toInt < u.toNat) :
    i.toInt ≠ (u.toNat : Int) := by
  have hi := i.toInt_le
  omega

theorem eq_of_integer?_eq {w x y : Value} (hlarge : w.UnsignedAreLarge) (hx : x ∈ w.leaves)
    (hy : y ∈ w.leaves) {n : Int} (hxn : x.integer? = some n) (hyn : y.integer? = some n) :
    x = y := by
  cases x with
  | integer i =>
      cases hxn
      cases y with
      | integer j => rw [Int64.toInt_inj.mp (Option.some.inj hyn)]
      | unsigned u =>
          exact absurd (Option.some.inj hyn).symm (toInt_ne_of_large (hlarge _ hy u rfl))
      | _ => cases hyn
  | unsigned u =>
      cases hxn
      cases y with
      | integer j => exact absurd (Option.some.inj hyn) (toInt_ne_of_large (hlarge _ hx u rfl))
      | unsigned u' => rw [UInt64.toNat_inj.mp (Int.ofNat.inj (Option.some.inj hyn))]
      | _ => cases hyn
  | _ => cases hxn

theorem unsignedAreLarge_iff_elements {v : Value} (h : v.isContainer = true) :
    v.UnsignedAreLarge ↔ ∀ x ∈ v.elements, x.UnsignedAreLarge :=
  forall_mem_leaves_iff h

theorem unsignedAreLarge_of_elements {v w : Value} (hv : v.isContainer = true)
    (hw : w.isContainer = true)
    (h : List.Forall₂ (fun x y => x.UnsignedAreLarge → y.UnsignedAreLarge)
      v.elements w.elements)
    (hlarge : v.UnsignedAreLarge) : w.UnsignedAreLarge := by
  rw [unsignedAreLarge_iff_elements hv] at hlarge
  rw [unsignedAreLarge_iff_elements hw]
  intro y hy
  obtain ⟨x, hx, himp⟩ := exists_mem_left_of_forall₂ h y hy
  exact himp (hlarge x hx)

theorem unsignedAreLarge_of_coerce? {tag : ScalarTag} {v w : Value}
    (h : coerce? tag v = some w) (hv : v.UnsignedAreLarge) : w.UnsignedAreLarge := by
  have hcanonical := isCanonical_of_coerce? h
  rw [UnsignedAreLarge, leaves_of_not_container (isContainer_of_coerce? h)] at hv
  rw [UnsignedAreLarge, leaves_of_not_container (isContainer_of_isCanonical hcanonical)]
  rw [List.forall_mem_singleton] at hv ⊢
  rintro u rfl
  cases hcanonical
  rcases eq_or_large_of_coerce?_unsigned h with hsame | hlarge
  · exact hv u hsame
  · have hmax : Int64.maxValue.toInt = 2 ^ 63 - 1 := rfl
    omega

theorem unsignedAreLarge_of_isNormalForm {d : Descriptor} {v w : Value}
    (h : IsNormalForm d v w) : v.UnsignedAreLarge → w.UnsignedAreLarge := by
  induction h using IsNormalForm.induction with
  | scalar tag v w h hcoerce => exact unsignedAreLarge_of_coerce? hcoerce
  | map schema v fields h hshape hfields =>
      refine unsignedAreLarge_of_elements (isContainer_of_isMapping hshape) rfl
        (forall₂_elements (hfields.imp ?_))
      rintro e f ⟨-, d, -, -, ih⟩
      exact ih
  | array element v items h hshape hitems =>
      refine unsignedAreLarge_of_elements (isContainer_of_isSequence hshape) rfl
        (hitems.imp ?_)
      rintro x y ⟨-, ih⟩
      exact ih

theorem unsignedAreLarge_of_normalizeDocument {v w : Value} {schema : Schema}
    (h : normalizeDocument v schema = .ok w) (hv : v.UnsignedAreLarge) :
    w.UnsignedAreLarge := by
  obtain ⟨hcontainer, hcontainer', hfields⟩ := fields_of_normalizeDocument h
  refine unsignedAreLarge_of_elements hcontainer hcontainer'
    (forall₂_elements (hfields.imp ?_)) hv
  rintro e f ⟨-, d, -, hform⟩
  exact unsignedAreLarge_of_isNormalForm hform

/-! ## Decoded documents -/

theorem unsignedAreLarge_ofNumber (n : Number) : (ofNumber n).UnsignedAreLarge := by
  cases n with
  | integer n range =>
      rw [ofNumber]
      split
      · simp [UnsignedAreLarge, leaves]
      · rename_i hlarge
        simp only [UnsignedAreLarge, leaves, List.forall_mem_singleton]
        rintro u hu
        cases hu
        have hrange : n.toNat < 2 ^ 64 := by omega
        rw [UInt64.toNat_ofNat_of_lt' hrange]
        have hmax : Int64.maxValue.toInt = 2 ^ 63 - 1 := rfl
        omega
  | float x finite => simp [ofNumber, UnsignedAreLarge, leaves]

mutual
theorem unsignedAreLarge_ofJson : ∀ j : Json, (ofJson j).UnsignedAreLarge
  | .null => by simp [ofJson, UnsignedAreLarge, leaves]
  | .bool _ => by simp [ofJson, UnsignedAreLarge, leaves]
  | .number n => unsignedAreLarge_ofNumber n
  | .string _ => by simp [ofJson, UnsignedAreLarge, leaves]
  | .array xs => by
      rw [ofJson, unsignedAreLarge_iff_elements rfl]
      exact unsignedAreLarge_ofItems xs
  | .object ms => by
      rw [ofJson, unsignedAreLarge_iff_elements rfl]
      intro x hx
      obtain ⟨m, hm, rfl⟩ := List.mem_map.mp hx
      exact unsignedAreLarge_ofMembers ms m hm

theorem unsignedAreLarge_ofItems : ∀ xs : List Json, ∀ v ∈ ofItems xs, v.UnsignedAreLarge
  | [] => by simp [ofItems]
  | x :: xs =>
      List.forall_mem_cons.mpr ⟨unsignedAreLarge_ofJson x, unsignedAreLarge_ofItems xs⟩

theorem unsignedAreLarge_ofMembers :
    ∀ ms : List (String × Json), ∀ m ∈ ofMembers ms, m.2.UnsignedAreLarge
  | [] => by simp [ofMembers]
  | (_, v) :: ms =>
      List.forall_mem_cons.mpr ⟨unsignedAreLarge_ofJson v, unsignedAreLarge_ofMembers ms⟩
end

theorem unsignedAreLarge_of_decode {text : String} {v : Value}
    (h : Value.decode text = .ok v) : v.UnsignedAreLarge := by
  unfold Value.decode at h
  split at h
  · cases h
    exact unsignedAreLarge_ofJson _
  · cases h

/-- What normalization gives conforms to the schema, down to the leaves, and keeps
one form for each integer if the document, like every decoded one, has it. -/
theorem normalizeDocument_conforms {v w : Value} {schema : Schema}
    (h : normalizeDocument v schema = .ok w) :
    ConformsDocument schema w ∧
      (∀ x ∈ w.leaves, x ≠ .null ∧ ∀ b, x ≠ .bool b) ∧
      (v.UnsignedAreLarge →
        w.UnsignedAreLarge ∧
          ∀ x ∈ w.leaves, ∀ y ∈ w.leaves, ∀ n,
            x.integer? = some n → y.integer? = some n → x = y) ∧
      (∀ text, Value.decode text = .ok v → v.UnsignedAreLarge) := by
  have hconforms := conformsDocument_of_normalizeDocument h
  refine ⟨hconforms, fun x hx => ?_, fun hv => ?_, fun _ => unsignedAreLarge_of_decode⟩
  · obtain ⟨tag, hcanonical⟩ := leaves_of_conformsDocument hconforms x hx
    cases hcanonical <;> exact ⟨nofun, nofun⟩
  · have hlarge := unsignedAreLarge_of_normalizeDocument h hv
    exact ⟨hlarge, fun x hx y hy n => eq_of_integer?_eq hlarge hx hy⟩

theorem normalizeDocument_conforms_root_sequence :
    let v : Value := .sequence
      [.mapping [("n", .unsigned 18446744073709551615), ("x", .string "1e1")],
        .mapping [("0", .string "-7"), ("1", .integer 7)]]
    let schema : Schema :=
      [("0", .map [("n", .scalar .int), ("x", .scalar .float)]), ("1", .array (.scalar .int))]
    let w : Value := .sequence
      [.mapping [("n", .unsigned 18446744073709551615), ("x", .float (.ofNat 10))],
        .sequence [.integer (-7), .integer 7]]
    normalizeDocument v schema = .ok w ∧ ConformsDocument schema w ∧ w.UnsignedAreLarge := by
  intro v schema w
  have hnormal : normalizeDocument v schema = .ok w := by decide +kernel
  have hlarge : v.UnsignedAreLarge := by
    simp [v, UnsignedAreLarge, leaves, leavesItems, leavesMembers]
    decide
  obtain ⟨hconforms, -, hintegers, -⟩ := normalizeDocument_conforms hnormal
  exact ⟨hnormal, hconforms, (hintegers hlarge).1⟩

end SchemaSieve
