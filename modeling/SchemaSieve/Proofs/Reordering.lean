import SchemaSieve.Proofs.Equality
import SchemaSieve.Proofs.Satisfying

/-!
# Members in another order

Two trees are reordered if they differ in the order of the members of mappings, at any depth.
Such trees are equal and nest as deep.  They need not have the same shape, though: mappings
named by positions count as sequences in one order and as mappings in all others.  Where no
mapping is named so, reordered trees have the same shape everywhere.
-/

namespace SchemaSieve.Value

/-- Trees that differ in the order of the members of mappings alone. -/
inductive Reordered : Value → Value → Prop
  | scalar {v : Value} (leaf : v.isContainer = false) : Reordered v v
  | sequence {xs ys : List Value} (items : List.Forall₂ Reordered xs ys) :
      Reordered (.sequence xs) (.sequence ys)
  | mapping {ms ns ps : List (String × Value)} (moved : ms.Perm ns)
      (names : Members.names ns = Members.names ps)
      (values : List.Forall₂ Reordered (ns.map Prod.snd) (ps.map Prod.snd)) :
      Reordered (.mapping ms) (.mapping ps)

/-- The members are named by the positions of a list, in whatever order. -/
def NamedByPositions (ms : List (String × Value)) : Prop :=
  ms ≠ [] ∧ ∃ n, ∀ name, name ∈ Members.names ms ↔ ∃ i < n, name = Decimal.natText i

inductive NoPositions : Value → Prop
  | scalar {v : Value} (leaf : v.isContainer = false) : NoPositions v
  | sequence {xs : List Value} (items : ∀ x ∈ xs, NoPositions x) : NoPositions (.sequence xs)
  | mapping {ms : List (String × Value)} (names : ¬ NamedByPositions ms)
      (values : ∀ m ∈ ms, NoPositions m.2) : NoPositions (.mapping ms)

theorem NoPositions.elements {v : Value} (h : v.NoPositions) :
    ∀ x ∈ v.elements, x.NoPositions := by
  cases h with
  | scalar leaf => simp [elements_of_not_container leaf]
  | sequence items => exact items
  | mapping names values => exact List.forall_mem_map.mpr values

/-! ## Shape -/

theorem namedByPositions_of_indexedFrom {ms : List (String × Value)} (hne : ms ≠ [])
    (h : indexedFrom 0 ms = true) : NamedByPositions ms := by
  refine ⟨hne, ms.length, fun name => ?_⟩
  rw [names_of_indexedFrom h, List.mem_map]
  simp only [List.mem_range, eq_comm]

theorem not_namedByPositions {ms : List (String × Value)} (h : "0" ∉ Members.names ms) :
    ¬ NamedByPositions ms := by
  rintro ⟨hne, n, hn⟩
  obtain ⟨m, hm⟩ := List.exists_mem_of_ne_nil ms hne
  obtain ⟨i, hi, -⟩ := (hn m.1).mp (List.mem_map_of_mem hm)
  exact h ((hn "0").mpr ⟨0, by omega, natText_zero.symm⟩)

theorem shape_of_not_namedByPositions {ms : List (String × Value)} (h : ¬ NamedByPositions ms) :
    (Value.mapping ms).isMapping = true ∧ ((Value.mapping ms).isSequence = true ↔ ms = []) := by
  by_cases hne : ms = []
  · simp [hne, isMapping, isSequence, indexedFrom]
  · have hindexed : indexedFrom 0 ms = false :=
      Bool.eq_false_iff.mpr fun hindexed => h (namedByPositions_of_indexedFrom hne hindexed)
    simp [isMapping, isSequence, hindexed, hne]

theorem forall₂_entries_sequence {R : Value → Value → Prop} {xs ys : List Value}
    (h : List.Forall₂ R xs ys) :
    List.Forall₂ (EntryRel R) (Value.sequence xs).entries (Value.sequence ys).entries := by
  refine forall₂_entryRel ?_ ?_
  · rw [names_entries_sequence, names_entries_sequence, h.length_eq]
  · simpa [entries] using h

namespace Reordered

variable {v w : Value}

theorem refl (v : Value) : Reordered v v := by
  induction v using elements_induction with
  | step v ih =>
      cases v with
      | sequence xs => exact .sequence (List.forall₂_same.mpr ih)
      | mapping ms => exact .mapping .rfl rfl (List.forall₂_same.mpr ih)
      | _ => exact .scalar rfl

theorem scalar_or_entries (h : Reordered v w) :
    v.isContainer = false ∧ w = v ∨
      v.isContainer = true ∧ w.isContainer = true ∧
        ∃ es, v.entries.Perm es ∧ List.Forall₂ (EntryRel Reordered) es w.entries := by
  cases h with
  | scalar leaf => exact .inl ⟨leaf, rfl⟩
  | @sequence xs ys items =>
      exact .inr ⟨rfl, rfl, _, .rfl, forall₂_entries_sequence items⟩
  | mapping moved names values =>
      exact .inr ⟨rfl, rfl, _, moved, forall₂_entryRel names values⟩

theorem isContainer_eq (h : Reordered v w) : v.isContainer = w.isContainer := by
  rcases h.scalar_or_entries with ⟨-, rfl⟩ | ⟨hv, hw, -⟩
  · rfl
  · rw [hv, hw]

theorem names_perm (h : Reordered v w) :
    (Members.names v.entries).Perm (Members.names w.entries) := by
  rcases h.scalar_or_entries with ⟨-, rfl⟩ | ⟨-, -, es, hperm, hentries⟩
  · exact .rfl
  · rw [← names_of_entryRel hentries]
    exact hperm.map Prod.fst

theorem length_eq (h : Reordered v w) : v.entries.length = w.entries.length := by
  simpa [Members.names] using h.names_perm.length_eq

theorem namedByPositions_iff {ms ps : List (String × Value)}
    (h : Reordered (.mapping ms) (.mapping ps)) : NamedByPositions ms ↔ NamedByPositions ps := by
  have hlen : ms.length = ps.length := h.length_eq
  have hnames : ∀ name, name ∈ Members.names ms ↔ name ∈ Members.names ps :=
    fun name => h.names_perm.mem_iff
  simp only [NamedByPositions, hnames, ← List.length_pos_iff, hlen]

theorem shape (h : Reordered v w) (hv : v.NoPositions) :
    v.isMapping = w.isMapping ∧ v.isSequence = w.isSequence ∧
      (v.isSequence = true → List.Forall₂ Reordered v.elements w.elements) := by
  cases h with
  | scalar leaf =>
      refine ⟨rfl, rfl, fun _ => ?_⟩
      rw [elements_of_not_container leaf]
      exact .nil
  | @sequence xs ys items =>
      refine ⟨?_, rfl, fun _ => items⟩
      rw [isMapping, isMapping, Bool.eq_iff_iff, List.isEmpty_iff_length_eq_zero,
        List.isEmpty_iff_length_eq_zero, items.length_eq]
  | @mapping ms ns ps moved names values =>
      cases hv with
      | scalar leaf => cases leaf
      | mapping hnames hvalues =>
          have hreordered : Reordered (.mapping ms) (.mapping ps) := .mapping moved names values
          have hms := shape_of_not_namedByPositions hnames
          have hps := shape_of_not_namedByPositions
            (mt hreordered.namedByPositions_iff.mpr hnames)
          have hempty : ms = [] ↔ ps = [] := by
            rw [← List.length_eq_zero_iff, ← List.length_eq_zero_iff]
            exact hreordered.length_eq ▸ Iff.rfl
          refine ⟨hms.1.trans hps.1.symm, ?_, fun hsequence => ?_⟩
          · rw [Bool.eq_iff_iff, hms.2, hps.2, hempty]
          · obtain rfl := hms.2.mp hsequence
            obtain rfl := hempty.mp rfl
            exact .nil

/-! ## Depth and equality -/

theorem nesting_eq (h : Reordered v w) : v.nesting = w.nesting := by
  induction v using elements_induction generalizing w with
  | step v ih =>
      rcases h.scalar_or_entries with ⟨-, rfl⟩ | ⟨hv, hw, es, hperm, hentries⟩
      · rfl
      · have hvalues : List.Forall₂ (fun e f => f.2.nesting = e.2.nesting) es w.entries := by
          refine forall₂_imp_of_mem ?_ hentries
          rintro e f he ⟨-, hef⟩
          exact (ih e.2 (snd_mem_elements (hperm.mem_iff.mpr he)) hef).symm
        have hstep : w.entries.map (fun e => e.2.nesting) = es.map fun e => e.2.nesting :=
          map_eq_of_forall₂ (fun _ _ => id) hvalues
        have hnestings : (v.elements.map nesting).Perm (w.elements.map nesting) := by
          rw [elements_eq_map_entries, elements_eq_map_entries, List.map_map, List.map_map]
          exact (hperm.map _).trans (.of_eq hstep.symm)
        rw [nesting_of_container hv, nesting_of_container hw, nestingItems_eq_foldr,
          nestingItems_eq_foldr, hnestings.foldr_eq 0]

theorem equal (h : Reordered v w) (hv : v.DistinctNames) : v.equal w = true := by
  induction v using elements_induction generalizing w with
  | step v ih =>
      obtain ⟨hnames, helements⟩ := hv.entries
      cases h with
      | scalar leaf => exact equal_self_of_leaf leaf
      | sequence items =>
          rw [equal_sequence_iff]
          exact forall₂_imp_of_mem (fun x y hx hxy => ih x hx hxy (helements x hx)) items
      | @mapping ms ns ps moved names values =>
          have hps : (Members.names ps).Nodup := by
            rw [← names]
            exact (moved.map Prod.fst).nodup_iff.mp hnames
          have hlen : ms.length = ps.length := (Reordered.mapping moved names values).length_eq
          refine equal_mapping_iff.mpr ⟨hlen, fun m hm => ?_⟩
          obtain ⟨f, hf, hname, hvalue⟩ := exists_mem_right_of_forall₂
            (forall₂_entryRel names values) m (moved.mem_iff.mp hm)
          have hmem : m.2 ∈ (Value.mapping ms).elements := List.mem_map_of_mem hm
          refine ⟨f.2, ?_, ih m.2 hmem hvalue (helements m.2 hmem)⟩
          rw [hname]
          exact Members.get?_of_mem hps hf

end Reordered

end SchemaSieve.Value
