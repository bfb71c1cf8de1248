import SchemaSieve.Proofs.DecidableEquality
import SchemaSieve.Proofs.Resanitizing

/-!
# Positions kept by normalization

A position is the way down to a value by places among elements, whatever container these are
in.  A normal form has exactly the positions of the value it was made from, and what stands at
one of them was made, on its own, from what stood there before: under the type that is declared
for the position a scalar was coerced, a mapping has the names it had in their order, and a
sequence its length.

The walk puts the fields of a level one behind the other.  Where no name comes twice this is the
same as to collect them by name, so that nothing is ever put in the place of something else.
-/

namespace SchemaSieve

/-! ## Positions -/

def Value.at? (v : Value) : List Nat → Option Value
  | [] => some v
  | i :: position => v.elements[i]?.bind (·.at? position)

/-- The type declared for a position in a value: one for each name in a map, one for all
elements of an array. -/
def Descriptor.at? (d : Descriptor) (v : Value) : List Nat → Option Descriptor
  | [] => some d
  | i :: position =>
      match d with
      | .map schema =>
          v.entries[i]?.bind fun e => (Members.get? schema e.1).bind (·.at? e.2 position)
      | .array element => v.elements[i]?.bind (element.at? · position)
      | _ => none

namespace Normalization

open Value

variable {d : Descriptor} {v w : Value} {schema : Schema}

/-- At a position either both trees end, or the one has the normal form of what the other has,
under the type declared there. -/
def InStepAt (d : Descriptor) (v w : Value) (position : List Nat) : Prop :=
  Option.Rel (fun x y => ∃ type, d.at? v position = some type ∧ IsNormalForm type x y)
    (v.at? position) (w.at? position)

theorem inStepAt_of_fields (h : List.Forall₂ (FieldForm schema) v.entries w.entries) (i : Nat)
    {position : List Nat} (below : ∀ {d v w}, IsNormalForm d v w → InStepAt d v w position) :
    InStepAt (.map schema) v w (i :: position) := by
  have hentry := rel_getElem? h i
  simp only [InStepAt, Value.at?, Descriptor.at?, elements_eq_map_entries, List.getElem?_map]
  generalize v.entries[i]? = e at hentry ⊢
  generalize w.entries[i]? = f at hentry ⊢
  cases hentry with
  | none => exact .none
  | some hef =>
      obtain ⟨-, type, htype, hform⟩ := hef
      simp only [Option.map_some, Option.bind_some, htype]
      exact below hform

theorem inStepAt_of_isNormalForm (h : IsNormalForm d v w) (position : List Nat) :
    InStepAt d v w position := by
  induction position generalizing d v w with
  | nil => exact .some ⟨d, rfl, h⟩
  | cons i position ih =>
      cases d with
      | scalar tag =>
          have hcoerce := isNormalForm_scalar.mp h
          have hv := isContainer_of_coerce? hcoerce
          have hw := isContainer_of_isCanonical (Coercion.isCanonical_of_coerce? hcoerce)
          rw [InStepAt, Value.at?, Value.at?, elements_of_not_container hv,
            elements_of_not_container hw]
          exact .none
      | map schema =>
          obtain ⟨-, fields, hfields, rfl⟩ := isNormalForm_map.mp h
          exact inStepAt_of_fields hfields i fun hbelow => ih hbelow
      | array element =>
          obtain ⟨-, items, hitems, rfl⟩ := isNormalForm_array.mp h
          have hitem := rel_getElem? hitems i
          simp only [InStepAt, Value.at?, Descriptor.at?]
          rw [show (Value.sequence items).elements = items from rfl]
          generalize v.elements[i]? = x at hitem ⊢
          generalize items[i]? = y at hitem ⊢
          cases hitem with
          | none => exact .none
          | some hxy => exact ih hxy
      | malformed defect raw => exact absurd h not_isNormalForm_malformed

theorem inStepAt_of_normalizeDocument (h : normalizeDocument v schema = .ok w) (i : Nat)
    (position : List Nat) : InStepAt (.map schema) v w (i :: position) :=
  inStepAt_of_fields (fields_of_normalizeDocument h).2.2 i
    fun hbelow => inStepAt_of_isNormalForm hbelow position

/-! ## What is kept at a position -/

/-- What becomes of a value under a type, but for what is below it. -/
inductive RebuiltAs : Descriptor → Value → Value → Prop
  | scalar {tag : ScalarTag} {x y : Value} (coerced : Coercion.coerce? tag x = some y) :
      RebuiltAs (.scalar tag) x y
  | map {schema : Schema} {x : Value} {fields : List (String × Value)}
      (names : Members.names fields = Members.names x.entries) :
      RebuiltAs (.map schema) x (.mapping fields)
  | array {element : Descriptor} {x : Value} {items : List Value}
      (length : items.length = x.elements.length) :
      RebuiltAs (.array element) x (.sequence items)

theorem rebuiltAs_of_isNormalForm (h : IsNormalForm d v w) : RebuiltAs d v w := by
  cases d with
  | scalar tag => exact .scalar (isNormalForm_scalar.mp h)
  | map schema =>
      obtain ⟨-, fields, hfields, rfl⟩ := isNormalForm_map.mp h
      exact .map (names_of_fieldForm hfields)
  | array element =>
      obtain ⟨-, items, hitems, rfl⟩ := isNormalForm_array.mp h
      exact .array hitems.length_eq.symm
  | malformed defect raw => exact absurd h not_isNormalForm_malformed

/-! ## Fields collected by name -/

def collectEntries (path : FieldPath) (schema : Schema) (fields : Members Value) :
    List (String × Value) → Except Violation (Members Value)
  | [] => .ok fields
  | e :: entries => do
      let w ← normalizeEntry path schema e
      collectEntries path schema (fields.put e.1 w) entries

theorem collectEntries_eq (path : FieldPath) {fields : Members Value}
    {entries : List (String × Value)} (hnames : (Members.names (fields ++ entries)).Nodup) :
    collectEntries path schema fields entries =
      (fields ++ ·) <$> normalizeEntries path entries schema := by
  induction entries generalizing fields with
  | nil => simp [collectEntries, normalizeEntries, Functor.map, Except.map]
  | cons e entries ih =>
      rw [collectEntries, normalizeEntries_cons]
      cases normalizeEntry path schema e with
      | error violation => rfl
      | ok w =>
          have hnew : e.1 ∉ fields.names := by
            rw [Members.names, List.map_append, List.nodup_append] at hnames
            intro hmem
            exact hnames.2.2 e.1 hmem e.1 List.mem_cons_self rfl
          have hput := Members.put_of_not_mem w hnew
          have hrest : (Members.names (fields.put e.1 w ++ entries)).Nodup := by
            simpa [hput, Members.names] using hnames
          change collectEntries path schema (fields.put e.1 w) entries = _
          rw [ih hrest, hput]
          cases normalizeEntries path entries schema with
          | error violation => rfl
          | ok rest => simp [Functor.map, Except.map, bind, Except.bind]

theorem collectEntries_of_fields (path : FieldPath)
    (hnames : (Members.names v.entries).Nodup)
    (h : List.Forall₂ (FieldForm schema) v.entries w.entries) :
    collectEntries path schema [] v.entries = .ok w.entries := by
  rw [← fieldAt_eq_fieldForm path] at h
  rw [collectEntries_eq path (by simpa using hnames), normalizeEntries_eq_ok.mpr h]
  rfl

theorem distinctNames_at? {x : Value} {position : List Nat} (hv : v.DistinctNames)
    (hx : v.at? position = some x) : x.DistinctNames := by
  induction position generalizing v with
  | nil =>
      cases hx
      exact hv
  | cons i position ih =>
      obtain ⟨y, hy, hx⟩ := Option.bind_eq_some_iff.mp hx
      exact ih (hv.entries.2 y (List.mem_of_getElem? hy)) hx

/-! ## Documents -/

theorem rebuild_sequence {xs : List Value} (hxs : xs ≠ []) (fields : List (String × Value)) :
    rebuild (.sequence xs) fields = .sequence (fields.map Prod.snd) := by
  cases xs with
  | nil => exact absurd rfl hxs
  | cons x xs => rfl

theorem rebuild_of_no_items (hv : ∀ xs, v = .sequence xs → xs = [])
    (fields : List (String × Value)) : rebuild v fields = .mapping fields := by
  cases v with
  | sequence xs =>
      rw [hv xs rfl]
      rfl
  | _ => rfl

theorem isSome_at?_of_inStepAt {position : List Nat} (h : InStepAt d v w position) :
    (w.at? position).isSome = (v.at? position).isSome := by
  unfold InStepAt at h
  generalize v.at? position = x at h ⊢
  generalize w.at? position = y at h ⊢
  cases h <;> rfl

theorem exists_of_inStepAt {position : List Nat} {x : Value} (h : InStepAt d v w position)
    (hx : v.at? position = some x) :
    ∃ type y, d.at? v position = some type ∧ w.at? position = some y ∧ IsNormalForm type x y := by
  unfold InStepAt at h
  rw [hx] at h
  generalize w.at? position = y at h ⊢
  obtain ⟨type, htype, hform⟩ := h
  exact ⟨type, _, htype, rfl, hform⟩

section Document

variable (h : normalizeDocument v schema = .ok w)
include h

theorem isSome_at?_eq (position : List Nat) :
    (w.at? position).isSome = (v.at? position).isSome := by
  cases position with
  | nil => rfl
  | cons i position => exact isSome_at?_of_inStepAt (inStepAt_of_normalizeDocument h i position)

theorem exists_form_at? {position : List Nat} {x : Value} (hne : position ≠ [])
    (hx : v.at? position = some x) :
    ∃ type y, (Descriptor.map schema).at? v position = some type ∧ w.at? position = some y ∧
      IsNormalForm type x y := by
  obtain ⟨i, position, rfl⟩ := List.exists_cons_of_ne_nil hne
  exact exists_of_inStepAt (inStepAt_of_normalizeDocument h i position) hx

theorem exists_scalar_at? {position : List Nat} {y : Value} (hy : w.at? position = some y)
    (hleaf : y.isContainer = false) :
    ∃ tag x, (Descriptor.map schema).at? v position = some (.scalar tag) ∧
      v.at? position = some x ∧ Coercion.coerce? tag x = some y := by
  have hne : position ≠ [] := by
    rintro rfl
    cases hy
    rw [(fields_of_normalizeDocument h).2.1] at hleaf
    cases hleaf
  have hsome := isSome_at?_eq h position
  rw [hy, Option.isSome_some, eq_comm, Option.isSome_iff_exists] at hsome
  obtain ⟨x, hx⟩ := hsome
  obtain ⟨type, y', htype, hy', hform⟩ := exists_form_at? h hne hx
  obtain rfl : y = y' := Option.some.inj (hy.symm.trans hy')
  -- only a scalar is rebuilt as what is no container
  cases rebuiltAs_of_isNormalForm hform with
  | scalar coerced => exact ⟨_, x, htype, hx, coerced⟩
  | map names => cases hleaf
  | array length => cases hleaf

theorem collectEntries_at? (hdistinct : v.DistinctNames) {position : List Nat} {fields : Schema}
    {x y : Value} (hx : v.at? position = some x)
    (htype : (Descriptor.map schema).at? v position = some (.map fields))
    (hy : w.at? position = some y) (path : FieldPath) :
    collectEntries path fields [] x.entries = .ok y.entries := by
  have hnames := (distinctNames_at? hdistinct hx).entries.1
  by_cases hne : position = []
  · subst hne
    cases hx
    cases hy
    cases htype
    exact collectEntries_of_fields path hnames (fields_of_normalizeDocument h).2.2
  · obtain ⟨type, y', htype', hy', hform⟩ := exists_form_at? h hne hx
    obtain rfl : y = y' := Option.some.inj (hy.symm.trans hy')
    obtain rfl : .map fields = type := Option.some.inj (htype.symm.trans htype')
    obtain ⟨-, fields, hfields, rfl⟩ := isNormalForm_map.mp hform
    exact collectEntries_of_fields path hnames hfields

theorem length_elements_eq : w.elements.length = v.elements.length := by
  rw [elements_eq_map_entries, elements_eq_map_entries, List.length_map, List.length_map]
  exact (fields_of_normalizeDocument h).2.2.length_eq.symm

end Document

end Normalization

open Value Normalization

/-- A document in normal form has the positions it had before, and the same names in the same
order.  At each position, under the type that is declared for it, stands the normal form of what
stood there: a scalar coerced, a mapping with its names, a sequence with its length.  The root
stays a sequence if it had items, and is a mapping else.  On no level does a name that is put
take the place of another, as long as the names are distinct. -/
theorem normalizeDocument_keeps_positions {v w : Value} {schema : Schema}
    (h : normalizeDocument v schema = .ok w) :
    Members.names w.entries = Members.names v.entries ∧
    (∀ position, (w.at? position).isSome = (v.at? position).isSome) ∧
    (∀ position x, position ≠ [] → v.at? position = some x →
      ∃ type y, (Descriptor.map schema).at? v position = some type ∧
        w.at? position = some y ∧ normalize x type = .ok y ∧ RebuiltAs type x y) ∧
    (∀ position y, w.at? position = some y → y.isContainer = false →
      ∃ tag x, (Descriptor.map schema).at? v position = some (.scalar tag) ∧
        v.at? position = some x ∧ Coercion.coerce? tag x = some y) ∧
    (∀ xs, v = .sequence xs → xs ≠ [] → ∃ ys, w = .sequence ys ∧ ys.length = xs.length) ∧
    ((∀ xs, v = .sequence xs → xs = []) → ∃ fields, w = .mapping fields) ∧
    (v.DistinctNames → ∀ position fields x y, v.at? position = some x →
      (Descriptor.map schema).at? v position = some (.map fields) → w.at? position = some y →
        ∀ path, collectEntries path fields [] x.entries = .ok y.entries) := by
  refine ⟨names_of_fieldForm (fields_of_normalizeDocument h).2.2, isSome_at?_eq h,
    fun position x hne hx => ?_, fun position y => exists_scalar_at? h, ?_, ?_,
    fun hdistinct position fields x y => collectEntries_at? h hdistinct⟩
  · obtain ⟨type, y, htype, hy, hform⟩ := exists_form_at? h hne hx
    exact ⟨type, y, htype, hy, hform, rebuiltAs_of_isNormalForm hform⟩
  · rintro xs rfl hxs
    have hlen := length_elements_eq h
    obtain ⟨-, fields, -, rfl⟩ := normalizeDocument_eq_ok.mp h
    rw [rebuild_sequence hxs] at hlen ⊢
    exact ⟨_, rfl, hlen⟩
  · intro hv
    obtain ⟨-, fields, -, rfl⟩ := normalizeDocument_eq_ok.mp h
    exact ⟨fields, rebuild_of_no_items hv fields⟩

theorem normalizeDocument_keeps_positions_root_sequence :
    let v : Value := .sequence [.mapping [("n", .string "1e1"), ("p", .integer 89502885623)],
      .mapping [("0", .integer 7), ("1", .string "2.0")]]
    let fields : Schema := [("p", .scalar .phone), ("n", .scalar .float)]
    let schema : Schema := [("1", .array (.scalar .string)), ("0", .map fields)]
    let w : Value := .sequence [.mapping [("n", .float (.ofNat 10)), ("p", .string "79502885623")],
      .sequence [.string "7", .string "2.0"]]
    normalizeDocument v schema = .ok w ∧ Members.names w.entries = Members.names v.entries ∧
      (∃ tag x, v.at? [0, 0] = some x ∧ Coercion.coerce? tag x = some (.float (.ofNat 10))) ∧
      collectEntries .root fields [] [("n", .string "1e1"), ("p", .integer 89502885623)] =
        .ok [("n", .float (.ofNat 10)), ("p", .string "79502885623")] := by
  intro v fields schema w
  have hnormal : normalizeDocument v schema = .ok w := by decide +kernel
  have hdistinct : v.DistinctNames := by
    have hdecode : Value.decode
        "[\x7b\"n\":\"1e1\",\"p\":89502885623\x7d,\x7b\"0\":7,\"1\":\"2.0\"\x7d]" = .ok v := by
      decide +kernel
    exact distinctNames_of_decode hdecode
  obtain ⟨hnames, -, -, hleaves, -, -, hcollect⟩ := normalizeDocument_keeps_positions hnormal
  obtain ⟨tag, x, -, hx, hcoerce⟩ := hleaves [0, 0] (.float (.ofNat 10)) (by decide +kernel) rfl
  exact ⟨hnormal, hnames, ⟨tag, x, hx, hcoerce⟩,
    hcollect hdistinct [0] fields _ _ rfl (by decide +kernel) rfl .root⟩

end SchemaSieve
