import SchemaSieve.Proofs.DecidableEquality
import SchemaSieve.Proofs.Issues
import SchemaSieve.Proofs.NormalForm

/-!
# Containers with the same contents

A sequence may be written as a mapping named by position.  Trees that differ in
nothing else have the same contents: the same shape, the same depth and the same
normal form under every type, with issues of the same codes at the same places.
Both walks look at containers only through their entries, which is all the proofs
use.
-/

namespace SchemaSieve

open Value

/-- Trees that differ only in how their containers are written. -/
inductive SameContents : Value → Value → Prop
  | scalar {v : Value} (leaf : v.isContainer = false) : SameContents v v
  | sequence {xs ys : List Value} (items : List.Forall₂ SameContents xs ys) :
      SameContents (.sequence xs) (.sequence ys)
  | mapping {ms ns : List (String × Value)} (names : Members.names ms = Members.names ns)
      (values : List.Forall₂ SameContents (ms.map Prod.snd) (ns.map Prod.snd)) :
      SameContents (.mapping ms) (.mapping ns)
  | named {xs : List Value} {ns : List (String × Value)}
      (names : Members.names ns = (List.range xs.length).map Decimal.natText)
      (values : List.Forall₂ SameContents xs (ns.map Prod.snd)) :
      SameContents (.sequence xs) (.mapping ns)
  | unnamed {ms : List (String × Value)} {ys : List Value}
      (names : Members.names ms = (List.range ys.length).map Decimal.natText)
      (values : List.Forall₂ SameContents (ms.map Prod.snd) ys) :
      SameContents (.mapping ms) (.sequence ys)

/-! ## Entries -/

namespace Value

theorem names_indexed (i : Nat) (xs : List Value) :
    Members.names (indexed i xs) = (List.range' i xs.length).map Decimal.natText := by
  induction xs generalizing i with
  | nil => rfl
  | cons x xs ih =>
      have hrest := ih (i + 1)
      simp only [Members.names] at hrest ⊢
      simp [indexed, List.range'_succ, hrest]

theorem names_entries_sequence (xs : List Value) :
    Members.names (Value.sequence xs).entries =
      (List.range xs.length).map Decimal.natText := by
  rw [entries, names_indexed, List.range_eq_range']

theorem indexedFrom_indexed (i : Nat) (xs : List Value) :
    indexedFrom i (indexed i xs) = true := by
  induction xs generalizing i with
  | nil => rfl
  | cons x xs ih => simp [indexed, indexedFrom, ih]

theorem isSequence_eq {v : Value} (h : v.isContainer = true) :
    v.isSequence = indexedFrom 0 v.entries := by
  cases v with
  | sequence xs => simp [isSequence, entries, indexedFrom_indexed]
  | mapping ms => rfl
  | _ => cases h

theorem isMapping_eq {v : Value} (h : v.isContainer = true) :
    v.isMapping = (v.entries.isEmpty || !indexedFrom 0 v.entries) := by
  cases v with
  | sequence xs =>
      simp only [isMapping, entries, indexedFrom_indexed, Bool.not_true, Bool.or_false]
      cases xs <;> rfl
  | mapping ms => rfl
  | _ => cases h

theorem isMapping_of_not_container {v : Value} (h : v.isContainer = false) :
    v.isMapping = false := by
  cases v <;> simp_all [isContainer, isMapping]

theorem isSequence_of_not_container {v : Value} (h : v.isContainer = false) :
    v.isSequence = false := by
  cases v <;> simp_all [isContainer, isSequence]

end Value

def EntryRel (R : Value → Value → Prop) (e f : String × Value) : Prop :=
  e.1 = f.1 ∧ R e.2 f.2

theorem forall₂_entryRel {R : Value → Value → Prop} {ms ns : List (String × Value)}
    (hnames : Members.names ms = Members.names ns)
    (hvalues : List.Forall₂ R (ms.map Prod.snd) (ns.map Prod.snd)) :
    List.Forall₂ (EntryRel R) ms ns := by
  induction ms generalizing ns with
  | nil =>
      cases ns with
      | nil => exact .nil
      | cons n ns => simp [Members.names] at hnames
  | cons m ms ih =>
      cases ns with
      | nil => simp [Members.names] at hnames
      | cons n ns =>
          simp only [Members.names, List.map_cons, List.cons.injEq] at hnames
          simp only [List.map_cons, List.forall₂_cons] at hvalues
          exact .cons ⟨hnames.1, hvalues.1⟩ (ih hnames.2 hvalues.2)

theorem names_of_entryRel {R : Value → Value → Prop} {ms ns : List (String × Value)}
    (h : List.Forall₂ (EntryRel R) ms ns) : Members.names ms = Members.names ns :=
  (map_eq_of_forall₂ (fun _ _ hef => hef.1.symm) h).symm

theorem elements_of_entryRel {R : Value → Value → Prop} {v w : Value}
    (h : List.Forall₂ (EntryRel R) v.entries w.entries) :
    List.Forall₂ R v.elements w.elements :=
  forall₂_elements (h.imp fun _ _ hef => hef.2)

namespace SameContents

variable {v w : Value}

theorem scalar_or_entries (h : SameContents v w) :
    v.isContainer = false ∧ w = v ∨
      v.isContainer = true ∧ w.isContainer = true ∧
        List.Forall₂ (EntryRel SameContents) v.entries w.entries := by
  cases h with
  | scalar leaf => exact .inl ⟨leaf, rfl⟩
  | @sequence xs ys items =>
      refine .inr ⟨rfl, rfl, forall₂_entryRel ?_ ?_⟩
      · rw [names_entries_sequence, names_entries_sequence, items.length_eq]
      · simpa [entries] using items
  | mapping names values => exact .inr ⟨rfl, rfl, forall₂_entryRel names values⟩
  | @named xs ns names values =>
      refine .inr ⟨rfl, rfl, forall₂_entryRel ?_ ?_⟩
      · rw [names_entries_sequence]
        exact names.symm
      · simpa [entries] using values
  | @unnamed ms ys names values =>
      refine .inr ⟨rfl, rfl, forall₂_entryRel ?_ ?_⟩
      · rw [names_entries_sequence]
        exact names
      · simpa [entries] using values

theorem refl (v : Value) : SameContents v v := by
  induction v using elements_induction with
  | step v ih =>
      cases v with
      | sequence xs => exact .sequence (List.forall₂_same.mpr ih)
      | mapping ms => exact .mapping rfl (List.forall₂_same.mpr ih)
      | _ => exact .scalar rfl

theorem isSequence_eq (h : SameContents v w) : v.isSequence = w.isSequence := by
  rcases h.scalar_or_entries with ⟨-, rfl⟩ | ⟨hv, hw, hentries⟩
  · rfl
  · rw [Value.isSequence_eq hv, Value.isSequence_eq hw,
      indexedFrom_congr 0 (names_of_entryRel hentries)]

theorem isMapping_eq (h : SameContents v w) : v.isMapping = w.isMapping := by
  rcases h.scalar_or_entries with ⟨-, rfl⟩ | ⟨hv, hw, hentries⟩
  · rfl
  · have hempty : v.entries.isEmpty = w.entries.isEmpty := by
      rw [← List.isEmpty_map (f := Prod.fst), ← List.isEmpty_map (f := Prod.fst)]
      exact congrArg List.isEmpty (names_of_entryRel hentries)
    rw [Value.isMapping_eq hv, Value.isMapping_eq hw, hempty,
      indexedFrom_congr 0 (names_of_entryRel hentries)]

theorem isContainer_eq (h : SameContents v w) : v.isContainer = w.isContainer := by
  rcases h.scalar_or_entries with ⟨-, rfl⟩ | ⟨hv, hw, -⟩
  · rfl
  · rw [hv, hw]

/-! ## Induction -/

@[elab_as_elim]
theorem induction {motive : ∀ v w, SameContents v w → Prop}
    (scalar : ∀ v (h : SameContents v v), v.isContainer = false → motive v v h)
    (container : ∀ v w (h : SameContents v w), v.isContainer = true → w.isContainer = true →
      List.Forall₂ (EntryRel fun x y => ∃ h : SameContents x y, motive x y h)
        v.entries w.entries →
      motive v w h)
    {v w : Value} (h : SameContents v w) : motive v w h := by
  induction v using elements_induction generalizing w with
  | step v ih =>
      rcases h.scalar_or_entries with ⟨hleaf, rfl⟩ | ⟨hv, hw, hentries⟩
      · exact scalar w h hleaf
      · refine container v w h hv hw (forall₂_imp_of_mem ?_ hentries)
        rintro e f he ⟨hname, hsame⟩
        exact ⟨hname, hsame, ih e.2 (snd_mem_elements he) hsame⟩

theorem nesting_eq (h : SameContents v w) : v.nesting = w.nesting := by
  induction h using SameContents.induction with
  | scalar v h hleaf => rfl
  | container v w h hv hw hentries =>
      refine (nesting_eq_of_elements hv hw (forall₂_elements (hentries.imp ?_))).symm
      rintro e f ⟨-, -, ih⟩
      exact ih.symm

end SameContents

/-! ## Normal forms -/

namespace Normalization

def SameNormal (v w : Value) : Prop :=
  ∀ (p : FieldPath) (d : Descriptor), normalizeField p v d = normalizeField p w d

theorem normalizeEntries_congr {p : FieldPath} {schema : Schema}
    {ms ns : List (String × Value)}
    (h : List.Forall₂ (EntryRel SameNormal) ms ns) :
    normalizeEntries p ms schema = normalizeEntries p ns schema := by
  induction h with
  | nil => rfl
  | @cons e f ms ns hef _ ih =>
      obtain ⟨name, x⟩ := e
      obtain ⟨name', y⟩ := f
      obtain ⟨rfl, hvalue⟩ : name = name' ∧ _ := hef
      simp only [normalizeEntries, ih, hvalue _ _]

theorem normalizeElements_congr {p : FieldPath} {d : Descriptor} {xs ys : List Value}
    (h : List.Forall₂ SameNormal xs ys) :
    normalizeElements p xs d = normalizeElements p ys d := by
  induction h with
  | nil => rfl
  | cons hxy _ ih => simp only [normalizeElements, ih, hxy _ _]

theorem coerce?_of_container {tag : ScalarTag} {v : Value} (h : v.isContainer = true) :
    Coercion.coerce? tag v = none := by
  cases v with
  | sequence xs => cases tag <;> rfl
  | mapping ms => cases tag <;> rfl
  | _ => cases h

theorem normalizeField_of_sameContents {v w : Value} (h : SameContents v w) :
    SameNormal v w := by
  induction h using SameContents.induction with
  | scalar v h hleaf => exact fun _ _ => rfl
  | container v w h hv hw hentries =>
      intro p d
      have hnormal : List.Forall₂ (EntryRel SameNormal) v.entries w.entries := by
        refine hentries.imp ?_
        rintro e f ⟨hname, -, ih⟩
        exact ⟨hname, ih⟩
      cases d with
      | scalar tag =>
          simp only [normalizeField, coerce?_of_container hv, coerce?_of_container hw]
      | map schema =>
          simp only [normalizeField, h.isMapping_eq, normalizeEntries_congr hnormal]
      | array element =>
          simp only [normalizeField, h.isSequence_eq,
            normalizeElements_congr (elements_of_entryRel hnormal)]
      | malformed defect raw => simp only [normalizeField]

theorem normalizeEntries_of_sameContents {p : FieldPath} {v w : Value} {schema : Schema}
    (h : SameContents v w) :
    normalizeEntries p v.entries schema = normalizeEntries p w.entries schema := by
  rcases h.scalar_or_entries with ⟨-, rfl⟩ | ⟨-, -, hentries⟩
  · rfl
  · refine normalizeEntries_congr (hentries.imp ?_)
    rintro e f ⟨hname, hsame⟩
    exact ⟨hname, normalizeField_of_sameContents hsame⟩

end Normalization

/-! ## Issues -/

namespace Validation

variable {m n : ElementPaths} {v w : Value}

def SameCodes (m n : ElementPaths) (v w : Value) : Prop :=
  ∀ (p q : FieldPath) (d : Descriptor),
    (checkField m p v d).map Issue.code = (checkField n q w d).map Issue.code

theorem codes_checkCount (p q : FieldPath) {schema : Schema}
    (h : v.entries.length = w.entries.length) :
    (checkCount p v schema).map Issue.code = (checkCount q w schema).map Issue.code := by
  simp only [checkCount, h]
  split <;> rfl

theorem codes_checkScalar (p q : FieldPath) {tag : ScalarTag}
    {problem : Value → String → Problem}
    (haccepts : Coercion.accepts tag v = Coercion.accepts tag w)
    (hcode : (problem v tag.name).code = (problem w tag.name).code) :
    (checkScalar p v tag problem).map Issue.code =
      (checkScalar q w tag problem).map Issue.code := by
  simp only [checkScalar, haccepts]
  split
  · rfl
  · simp [Issue.code, hcode]

theorem accepts_eq_of_sameContents (h : SameContents v w) (tag : ScalarTag) :
    Coercion.accepts tag v = Coercion.accepts tag w := by
  rcases h.scalar_or_entries with ⟨-, rfl⟩ | ⟨hv, hw, -⟩
  · rfl
  · simp [Coercion.accepts, Normalization.coerce?_of_container, hv, hw]

theorem codes_checkElements {xs ys : List Value} {d : Descriptor}
    (h : List.Forall₂ (fun x y => ∃ _ : SameContents x y, SameCodes m n x y) xs ys)
    (p q : FieldPath) (i j : Nat) :
    (checkElements m p i xs d).map Issue.code = (checkElements n q j ys d).map Issue.code := by
  induction h generalizing i j with
  | nil => simp
  | cons hxy _ ih =>
      obtain ⟨hsame, hcodes⟩ := hxy
      simp only [checkElements_cons, List.map_append, ih (i + 1) (j + 1)]
      congr 1
      cases d with
      | scalar tag => exact codes_checkScalar _ _ (accepts_eq_of_sameContents hsame tag) rfl
      | _ => exact hcodes _ _ _

theorem codes_flatMap_checkEntry {ms ns : List (String × Value)} {schema : Schema}
    (h : List.Forall₂ (EntryRel (SameCodes m n)) ms ns) (p q : FieldPath) :
    (ms.flatMap (checkEntry m p schema)).map Issue.code =
      (ns.flatMap (checkEntry n q schema)).map Issue.code := by
  simp only [List.map_flatMap]
  refine (flatMap_eq_of_forall₂ ?_ h).symm
  rintro e f ⟨hname, hcodes⟩
  simp only [checkEntry, hname]
  cases schema.get? f.1 with
  | none => rfl
  | some d => exact (hcodes _ _ d).symm

theorem codes_checkField (h : SameContents v w) : SameCodes m n v w := by
  induction h using SameContents.induction with
  | scalar v h hleaf =>
      intro p q d
      cases d with
      | scalar tag =>
          simp only [checkField_scalar]
          exact codes_checkScalar p q rfl rfl
      | map schema =>
          simp only [checkField_map, isMapping_of_not_container hleaf]
          rfl
      | array element =>
          simp only [checkField_array, isSequence_of_not_container hleaf]
          rfl
      | malformed defect raw => cases defect <;> simp only [checkField_malformed] <;> rfl
  | container v w h hv hw hentries =>
      intro p q d
      cases d with
      | scalar tag =>
          simp only [checkField_scalar]
          exact codes_checkScalar p q (accepts_eq_of_sameContents h tag) rfl
      | map schema =>
          have hcodes : List.Forall₂ (EntryRel (SameCodes m n)) v.entries w.entries := by
            refine hentries.imp ?_
            rintro e f ⟨hname, -, ih⟩
            exact ⟨hname, ih⟩
          simp only [checkField_map, h.isMapping_eq]
          split
          · rw [List.map_append, List.map_append, codes_flatMap_checkEntry hcodes p q,
              codes_checkCount p q hentries.length_eq]
          · rfl
      | array element =>
          simp only [checkField_array, h.isSequence_eq]
          split
          · exact codes_checkElements (elements_of_entryRel hentries) p q 0 0
          · rfl
      | malformed defect raw => cases defect <;> simp only [checkField_malformed] <;> rfl

theorem codes_validate_of_sameContents (m n : ElementPaths) {schema : Schema}
    (h : SameContents v w) :
    (validate m v schema).map Issue.code = (validate n w schema).map Issue.code := by
  simp only [validate_eq, h.isContainer_eq]
  rcases h.scalar_or_entries with ⟨hleaf, rfl⟩ | ⟨-, hw, hentries⟩
  · rw [hleaf]
    rfl
  · have hcodes : List.Forall₂ (EntryRel (SameCodes m n)) v.entries w.entries :=
      hentries.imp fun e f hef => ⟨hef.1, codes_checkField hef.2⟩
    rw [if_pos hw, if_pos hw, List.map_append, List.map_append,
      codes_flatMap_checkEntry hcodes .root .root, codes_checkCount .root .root hentries.length_eq]

end Validation

/-! ## Documents -/

open Normalization Validation

theorem eq_or_named_of_entries_eq {v w : Value} (hv : v.isContainer = true)
    (hw : w.isContainer = true) (h : v.entries = w.entries) :
    v = w ∨ ∃ xs, v = .sequence xs ∧ w = .mapping (indexed 0 xs) ∨
      v = .mapping (indexed 0 xs) ∧ w = .sequence xs := by
  cases v with
  | sequence xs =>
      cases w with
      | sequence ys =>
          left
          have hitems := congrArg (List.map Prod.snd) h
          simp only [entries, map_snd_indexed] at hitems
          rw [hitems]
      | mapping ns => exact .inr ⟨xs, .inl ⟨rfl, congrArg _ h.symm⟩⟩
      | _ => cases hw
  | mapping ms =>
      cases w with
      | sequence ys => exact .inr ⟨ys, .inr ⟨congrArg _ h, rfl⟩⟩
      | mapping ns => exact .inl (congrArg _ h)
      | _ => cases hw
  | _ => cases hv

theorem entries_of_normalizeEntries {v : Value} {schema : Schema}
    {fields : List (String × Value)}
    (h : normalizeEntries .root v.entries schema = .ok fields) :
    (rebuild v fields).entries = fields := by
  rw [normalizeEntries_eq_ok, fieldAt_eq_fieldForm] at h
  exact entries_rebuild (names_of_fieldForm h)

theorem normalizeDocument_of_sameContents {v w : Value} (h : SameContents v w)
    (schema : Schema) :
    (∃ violation, normalizeDocument v schema = .error violation ∧
      normalizeDocument w schema = .error violation) ∨
    ∃ x y, normalizeDocument v schema = .ok x ∧ normalizeDocument w schema = .ok y ∧
      x.isContainer = true ∧ y.isContainer = true ∧ x.entries = y.entries := by
  rw [normalizeDocument, normalizeDocument, h.isContainer_eq]
  cases hw : w.isContainer with
  | false => exact .inl ⟨_, rfl, rfl⟩
  | true =>
      have hfields : normalizeEntries .root v.entries schema =
          normalizeEntries .root w.entries schema :=
        normalizeEntries_of_sameContents h
      cases hnormal : normalizeEntries .root w.entries schema with
      | error violation =>
          rw [hnormal] at hfields
          exact .inl ⟨violation, by simp [hfields, Functor.map, Except.map],
            by simp [Functor.map, Except.map]⟩
      | ok fields =>
          rw [hnormal] at hfields
          refine .inr ⟨rebuild v fields, rebuild w fields,
            by simp [hfields, Functor.map, Except.map], by simp [Functor.map, Except.map],
            isContainer_rebuild v fields, isContainer_rebuild w fields, ?_⟩
          rw [entries_of_normalizeEntries hfields, entries_of_normalizeEntries hnormal]

/-- It does not matter how the containers of a tree are written.  Trees with the same
contents have the same normal form under every type, or are refused at the same place
for the same reason; they nest as deep, and have issues of the same codes.  As documents
they have the same fields, and at most the container at the root differs. -/
theorem same_outcome_of_sameContents {v w : Value} (h : SameContents v w) :
    (∀ d, normalize v d = normalize w d) ∧
    v.depth = w.depth ∧
    (∀ mode schema, (validate mode v schema).map Issue.code =
      (validate mode w schema).map Issue.code) ∧
    ∀ schema,
      (∃ violation, normalizeDocument v schema = .error violation ∧
        normalizeDocument w schema = .error violation) ∨
      ∃ x y, normalizeDocument v schema = .ok x ∧ normalizeDocument w schema = .ok y ∧
        x.entries = y.entries ∧
        (x = y ∨ ∃ xs, x = .sequence xs ∧ y = .mapping (indexed 0 xs) ∨
          x = .mapping (indexed 0 xs) ∧ y = .sequence xs) := by
  refine ⟨normalizeField_of_sameContents h .root, ?_, ?_, fun schema => ?_⟩
  · rw [depth_eq_nesting, depth_eq_nesting, h.nesting_eq]
  · exact fun mode schema => codes_validate_of_sameContents mode mode h
  · rcases normalizeDocument_of_sameContents h schema with herror | ⟨x, y, hx, hy, hcx, hcy, heq⟩
    · exact .inl herror
    · exact .inr ⟨x, y, hx, hy, heq, eq_or_named_of_entries_eq hcx hcy heq⟩

theorem same_outcome_of_sameContents_root_sequence :
    let v : Value := .sequence [.mapping [("a", .sequence [.string "1"])], .sequence []]
    let w : Value := .mapping
      [("0", .mapping [("a", .mapping [("0", .string "1")])]), ("1", .mapping [])]
    let schema : Schema :=
      [("0", .map [("a", .array (.scalar .int))]), ("1", .map [("b", .scalar .float)])]
    SameContents v w ∧
      normalizeDocument v schema =
        .ok (.sequence [.mapping [("a", .sequence [.integer 1])], .mapping []]) ∧
      ∃ y, normalizeDocument w schema = .ok y ∧
        y.entries = [("0", .mapping [("a", .sequence [.integer 1])]), ("1", .mapping [])] := by
  intro v w schema
  have hinner : SameContents (.sequence [.string "1"]) (.mapping [("0", .string "1")]) :=
    .named (by decide +kernel) (.cons (.scalar rfl) .nil)
  have hsame : SameContents v w :=
    .named (by decide +kernel)
      (.cons (.mapping rfl (.cons hinner .nil)) (.cons (.named rfl .nil) .nil))
  have hnormal : normalizeDocument v schema =
      .ok (.sequence [.mapping [("a", .sequence [.integer 1])], .mapping []]) := by
    decide +kernel
  refine ⟨hsame, hnormal, ?_⟩
  rcases (same_outcome_of_sameContents hsame).2.2.2 schema with
    ⟨violation, herror, -⟩ | ⟨x, y, hx, hy, hentries, -⟩
  · rw [hnormal] at herror
    cases herror
  · rw [hnormal] at hx
    cases hx
    refine ⟨y, hy, hentries.symm.trans ?_⟩
    decide +kernel

end SchemaSieve
