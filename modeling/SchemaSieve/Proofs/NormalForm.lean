import SchemaSieve.Normalization
import SchemaSieve.Proofs.Trees

/-!
# Normal forms

`IsNormalForm d v w` says that `w` is the normal form of `v` under `d`.  It holds
at one path if it holds at any.  The lemmas named after the kinds of types say
what a normal form is without the walk, with the entries of a level in step with
those they came from; `IsNormalForm.induction` packs the recursion.
-/

namespace SchemaSieve.Normalization

open Value

def IsNormalForm (d : Descriptor) (v w : Value) : Prop := normalize v d = .ok w

def FieldAt (path : FieldPath) (schema : Schema) (e f : String × Value) : Prop :=
  f.1 = e.1 ∧ ∃ d, schema.get? e.1 = some d ∧
    normalizeField (path.child e.1) e.2 d = .ok f.2

/-- A field of a level in normal form, with the entry it came from. -/
def FieldForm (schema : Schema) (e f : String × Value) : Prop :=
  f.1 = e.1 ∧ ∃ d, schema.get? e.1 = some d ∧ IsNormalForm d e.2 f.2

theorem declared_and_iff {P : Descriptor → Value → Prop} {schema : Schema}
    {entries : List (String × Value)} :
    ((∀ e ∈ entries, ∃ d, schema.get? e.1 = some d) ∧
        ∀ e ∈ entries, ∀ d, schema.get? e.1 = some d → P d e.2) ↔
      ∀ e ∈ entries, ∃ d, schema.get? e.1 = some d ∧ P d e.2 := by
  constructor
  · rintro ⟨declared, hvalues⟩ e he
    obtain ⟨d, hd⟩ := declared e he
    exact ⟨d, hd, hvalues e he d hd⟩
  · refine fun h => ⟨fun e he => ?_, fun e he d hd => ?_⟩
    · obtain ⟨d, hd, -⟩ := h e he
      exact ⟨d, hd⟩
    · obtain ⟨d', hd', hvalue⟩ := h e he
      rw [hd] at hd'
      cases hd'
      exact hvalue

/-! ## The walk over a level -/

def normalizeEntry (path : FieldPath) (schema : Schema) (e : String × Value) :
    Except Violation Value :=
  match schema.get? e.1 with
  | some d => normalizeField (path.child e.1) e.2 d
  | none => .error ⟨path.child e.1, .undeclared⟩

theorem normalizeEntry_eq_ok {path : FieldPath} {schema : Schema} {e : String × Value}
    {w : Value} :
    normalizeEntry path schema e = .ok w ↔
      ∃ d, schema.get? e.1 = some d ∧ normalizeField (path.child e.1) e.2 d = .ok w := by
  unfold normalizeEntry
  cases schema.get? e.1 <;> simp

theorem normalizeEntries_cons (path : FieldPath) (e : String × Value)
    (entries : List (String × Value)) (schema : Schema) :
    normalizeEntries path (e :: entries) schema = (do
      let w ← normalizeEntry path schema e
      let rest ← normalizeEntries path entries schema
      .ok ((e.1, w) :: rest)) := by
  rw [normalizeEntries]
  rfl

private theorem normalizeEntries_cons_eq_ok {path : FieldPath} {e : String × Value}
    {entries fields : List (String × Value)} {schema : Schema} :
    normalizeEntries path (e :: entries) schema = .ok fields ↔
      ∃ f rest, FieldAt path schema e f ∧
        normalizeEntries path entries schema = .ok rest ∧ fields = f :: rest := by
  simp only [normalizeEntries_cons, FieldAt, ← normalizeEntry_eq_ok]
  cases hentry : normalizeEntry path schema e with
  | error violation => simp [bind, Except.bind]
  | ok w =>
      cases hrest : normalizeEntries path entries schema with
      | error violation => simp [bind, Except.bind]
      | ok rest =>
          simp only [bind, Except.bind, Except.ok.injEq]
          constructor
          · rintro rfl
            exact ⟨(e.1, w), rest, ⟨rfl, rfl⟩, rfl, rfl⟩
          · rintro ⟨⟨name, w'⟩, rest', ⟨rfl, rfl⟩, rfl, rfl⟩
            rfl

theorem normalizeEntries_eq_ok {path : FieldPath} {entries fields : List (String × Value)}
    {schema : Schema} :
    normalizeEntries path entries schema = .ok fields ↔
      List.Forall₂ (FieldAt path schema) entries fields := by
  induction entries generalizing fields with
  | nil => simp [normalizeEntries, eq_comm]
  | cons e entries ih =>
      simp only [normalizeEntries_cons_eq_ok, ih, List.forall₂_cons_left_iff]

theorem normalizeElements_eq_ok {path : FieldPath} {elements items : List Value}
    {d : Descriptor} :
    normalizeElements path elements d = .ok items ↔
      List.Forall₂ (fun v w => normalizeField path v d = .ok w) elements items := by
  induction elements generalizing items with
  | nil => simp [normalizeElements, eq_comm]
  | cons v elements ih =>
      rw [normalizeElements, List.forall₂_cons_left_iff]
      simp only [← ih]
      cases hv : normalizeField path v d with
      | error violation => simp [bind, Except.bind]
      | ok w =>
          cases hrest : normalizeElements path elements d with
          | error violation => simp [bind, Except.bind]
          | ok rest => simp [bind, Except.bind, eq_comm]

/-! ## Fields of each type -/

theorem normalizeField_scalar_eq_ok {path : FieldPath} {tag : ScalarTag} {v w : Value} :
    normalizeField path v (.scalar tag) = .ok w ↔ Coercion.coerce? tag v = some w := by
  rw [normalizeField]
  cases Coercion.coerce? tag v <;> simp

theorem normalizeField_map_eq_ok {path : FieldPath} {schema : Schema} {v w : Value} :
    normalizeField path v (.map schema) = .ok w ↔
      v.isMapping = true ∧
        ∃ fields, List.Forall₂ (FieldAt path schema) v.entries fields ∧
          w = .mapping fields := by
  rw [normalizeField]
  simp only [← normalizeEntries_eq_ok]
  cases hshape : v.isMapping with
  | false => simp
  | true =>
      cases normalizeEntries path v.entries schema <;> simp [Functor.map, Except.map, eq_comm]

theorem normalizeField_array_eq_ok {path : FieldPath} {element : Descriptor} {v w : Value} :
    normalizeField path v (.array element) = .ok w ↔
      v.isSequence = true ∧
        ∃ items,
          List.Forall₂ (fun x y => normalizeField path x element = .ok y) v.elements items ∧
            w = .sequence items := by
  rw [normalizeField]
  simp only [← normalizeElements_eq_ok]
  cases hshape : v.isSequence with
  | false => simp
  | true =>
      cases normalizeElements path v.elements element <;>
        simp [Functor.map, Except.map, eq_comm]

theorem normalizeField_malformed_ne_ok {path : FieldPath} {defect : Defect} {raw : Json}
    {v w : Value} : normalizeField path v (.malformed defect raw) ≠ .ok w := by
  simp [normalizeField]

/-! ## Independence of the path -/

private theorem normalizeField_eq_ok_of_path (v : Value) :
    ∀ {p q : FieldPath} {d : Descriptor} {w : Value},
      normalizeField p v d = .ok w → normalizeField q v d = .ok w := by
  -- the path ends up in violations alone, and a success has none below it
  induction v using elements_induction with
  | step v ih =>
      intro p q d w h
      cases d with
      | scalar tag =>
          rw [normalizeField_scalar_eq_ok] at h ⊢
          exact h
      | map schema =>
          rw [normalizeField_map_eq_ok] at h ⊢
          obtain ⟨hshape, fields, hfields, rfl⟩ := h
          have hentry : ∀ e f, e ∈ v.entries → FieldAt p schema e f → FieldAt q schema e f := by
            rintro e f he ⟨hname, d, hd, hf⟩
            exact ⟨hname, d, hd, ih e.2 (snd_mem_elements he) hf⟩
          exact ⟨hshape, fields, forall₂_imp_of_mem hentry hfields, rfl⟩
      | array element =>
          rw [normalizeField_array_eq_ok] at h ⊢
          obtain ⟨hshape, items, hitems, rfl⟩ := h
          exact ⟨hshape, items, forall₂_imp_of_mem (fun x _ hx => ih x hx) hitems, rfl⟩
      | malformed defect raw => exact absurd h normalizeField_malformed_ne_ok

theorem normalizeField_eq_ok {path : FieldPath} {d : Descriptor} {v w : Value} :
    normalizeField path v d = .ok w ↔ IsNormalForm d v w :=
  ⟨normalizeField_eq_ok_of_path v, normalizeField_eq_ok_of_path v⟩

theorem names_of_fieldForm {schema : Schema} {entries fields : List (String × Value)}
    (h : List.Forall₂ (FieldForm schema) entries fields) :
    Members.names fields = Members.names entries :=
  map_eq_of_forall₂ (fun _ _ hf => hf.1) h

theorem fieldAt_eq_fieldForm (path : FieldPath) (schema : Schema) :
    FieldAt path schema = FieldForm schema := by
  funext e f
  simp only [FieldAt, FieldForm, normalizeField_eq_ok]

/-! ## Normal forms of each type -/

theorem isNormalForm_scalar {tag : ScalarTag} {v w : Value} :
    IsNormalForm (.scalar tag) v w ↔ Coercion.coerce? tag v = some w :=
  normalizeField_scalar_eq_ok

theorem isNormalForm_map {schema : Schema} {v w : Value} :
    IsNormalForm (.map schema) v w ↔
      v.isMapping = true ∧
        ∃ fields, List.Forall₂ (FieldForm schema) v.entries fields ∧ w = .mapping fields := by
  rw [IsNormalForm, normalize, normalizeField_map_eq_ok, fieldAt_eq_fieldForm]

theorem names_of_isNormalForm_map {schema : Schema} {v : Value}
    {fields : List (String × Value)} (h : IsNormalForm (.map schema) v (.mapping fields)) :
    Members.names fields = Members.names v.entries := by
  obtain ⟨-, _, hfields, hvalue⟩ := isNormalForm_map.mp h
  cases hvalue
  exact names_of_fieldForm hfields

theorem isNormalForm_array {element : Descriptor} {v w : Value} :
    IsNormalForm (.array element) v w ↔
      v.isSequence = true ∧
        ∃ items, List.Forall₂ (IsNormalForm element) v.elements items ∧
          w = .sequence items :=
  normalizeField_array_eq_ok

theorem not_isNormalForm_malformed {defect : Defect} {raw : Json} {v w : Value} :
    ¬ IsNormalForm (.malformed defect raw) v w :=
  normalizeField_malformed_ne_ok

/-! ## Documents -/

theorem entries_rebuild {v : Value} {fields : List (String × Value)}
    (hnames : Members.names fields = Members.names v.entries) :
    (rebuild v fields).entries = fields := by
  cases v with
  | sequence xs =>
      cases xs with
      | nil => rfl
      | cons x xs => exact eq_indexed_of_names hnames
  | _ => rfl

theorem rebuild_entries {w : Value} (h : w.isContainer = true) (hroot : w ≠ .sequence []) :
    rebuild w w.entries = w := by
  cases w with
  | sequence xs =>
      cases xs with
      | nil => exact absurd rfl hroot
      | cons x xs => simp only [rebuild, entries, map_snd_indexed]
  | mapping ms => rfl
  | _ => cases h

theorem rebuild_ne_sequence_nil {v : Value} {fields : List (String × Value)}
    (hnames : Members.names fields = Members.names v.entries) :
    rebuild v fields ≠ .sequence [] := by
  cases v with
  | sequence xs =>
      cases xs with
      | nil => simp [rebuild]
      | cons x xs =>
          -- as many fields as items, so the sequence stays one
          cases fields with
          | nil => simp [Members.names, entries, indexed] at hnames
          | cons f fields => simp [rebuild]
  | _ => simp [rebuild]

theorem isContainer_rebuild (v : Value) (fields : List (String × Value)) :
    (rebuild v fields).isContainer = true := by
  unfold rebuild
  split <;> rfl

theorem normalizeDocument_eq_ok {v w : Value} {schema : Schema} :
    normalizeDocument v schema = .ok w ↔
      v.isContainer = true ∧
        ∃ fields, List.Forall₂ (FieldForm schema) v.entries fields ∧ w = rebuild v fields := by
  rw [normalizeDocument]
  simp only [← fieldAt_eq_fieldForm .root, ← normalizeEntries_eq_ok]
  cases hshape : v.isContainer with
  | false => simp
  | true =>
      cases normalizeEntries .root v.entries schema <;>
        simp [Functor.map, Except.map, eq_comm]

theorem fields_of_normalizeDocument {v w : Value} {schema : Schema}
    (h : normalizeDocument v schema = .ok w) :
    v.isContainer = true ∧ w.isContainer = true ∧
      List.Forall₂ (FieldForm schema) v.entries w.entries := by
  obtain ⟨hcontainer, fields, hfields, rfl⟩ := normalizeDocument_eq_ok.mp h
  rw [entries_rebuild (names_of_fieldForm hfields)]
  exact ⟨hcontainer, isContainer_rebuild v fields, hfields⟩

/-! ## Induction -/

@[elab_as_elim]
theorem IsNormalForm.induction
    {motive : ∀ d v w, IsNormalForm d v w → Prop}
    (scalar : ∀ tag v w (h : IsNormalForm (.scalar tag) v w),
      Coercion.coerce? tag v = some w → motive (.scalar tag) v w h)
    (map : ∀ (schema : Schema) v fields (h : IsNormalForm (.map schema) v (.mapping fields)),
      v.isMapping = true →
      List.Forall₂
        (fun e f => f.1 = e.1 ∧ ∃ d, schema.get? e.1 = some d ∧
          ∃ h : IsNormalForm d e.2 f.2, motive d e.2 f.2 h)
        v.entries fields →
      motive (.map schema) v (.mapping fields) h)
    (array : ∀ element v items (h : IsNormalForm (.array element) v (.sequence items)),
      v.isSequence = true →
      List.Forall₂ (fun x y => ∃ h : IsNormalForm element x y, motive element x y h)
        v.elements items →
      motive (.array element) v (.sequence items) h)
    {d : Descriptor} {v w : Value} (h : IsNormalForm d v w) : motive d v w h := by
  induction v using elements_induction generalizing d w with
  | step v ih =>
      cases d with
      | scalar tag => exact scalar tag v w h (isNormalForm_scalar.mp h)
      | map schema =>
          obtain ⟨hshape, fields, hfields, rfl⟩ := isNormalForm_map.mp h
          refine map schema v fields h hshape (forall₂_imp_of_mem ?_ hfields)
          rintro e f he ⟨hname, d, hd, hf⟩
          exact ⟨hname, d, hd, hf, ih e.2 (snd_mem_elements he) hf⟩
      | array element =>
          obtain ⟨hshape, items, hitems, rfl⟩ := isNormalForm_array.mp h
          exact array element v items h hshape
            (forall₂_imp_of_mem (fun x _ hx hy => ⟨hy, ih x hx hy⟩) hitems)
      | malformed defect raw => exact absurd h not_isNormalForm_malformed

end SchemaSieve.Normalization
