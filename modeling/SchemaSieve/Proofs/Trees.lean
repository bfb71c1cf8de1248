import SchemaSieve.Proofs.Lists
import SchemaSieve.Value.Shape

/-!
# Trees by their elements

A container is seen through its entries or its elements, whichever kind it has.
`elements_induction` is the induction along that view; the nesting of a tree and
its leaves are recursions along it.  `depth_eq_nesting` says that the traversal
with a list of waiting values computes the recursive nesting.
-/

namespace SchemaSieve.Value

/-! ## Entries and elements -/

@[simp] theorem map_snd_indexed (i : Nat) (xs : List Value) :
    (indexed i xs).map Prod.snd = xs := by
  induction xs generalizing i with
  | nil => rfl
  | cons x xs ih => simp [indexed, ih]

theorem elements_eq_map_entries (v : Value) : v.elements = v.entries.map Prod.snd := by
  cases v <;> simp [elements, entries]

theorem snd_mem_elements {v : Value} {e : String × Value} (h : e ∈ v.entries) :
    e.2 ∈ v.elements := by
  rw [elements_eq_map_entries]
  exact List.mem_map_of_mem h

theorem elements_of_not_container {v : Value} (h : v.isContainer = false) :
    v.elements = [] := by
  cases v <;> simp_all [isContainer, elements]

theorem isContainer_of_isMapping {v : Value} (h : v.isMapping = true) :
    v.isContainer = true := by
  cases v <;> simp_all [isMapping, isContainer]

theorem isContainer_of_isSequence {v : Value} (h : v.isSequence = true) :
    v.isContainer = true := by
  cases v <;> simp_all [isSequence, isContainer]

theorem forall₂_elements {R : Value → Value → Prop} {v w : Value}
    (h : List.Forall₂ (fun e f => R e.2 f.2) v.entries w.entries) :
    List.Forall₂ R v.elements w.elements := by
  rw [elements_eq_map_entries, elements_eq_map_entries, List.forall₂_map_left_iff,
    List.forall₂_map_right_iff]
  exact h

theorem indexedFrom_congr {ms ns : List (String × Value)} (i : Nat)
    (h : Members.names ms = Members.names ns) :
    indexedFrom i ms = indexedFrom i ns := by
  induction ms generalizing i ns with
  | nil =>
      cases ns with
      | nil => rfl
      | cons n ns => simp [Members.names] at h
  | cons m ms ih =>
      cases ns with
      | nil => simp [Members.names] at h
      | cons n ns =>
          obtain ⟨hname, hrest⟩ : m.1 = n.1 ∧ Members.names ms = Members.names ns := by
            simpa [Members.names] using h
          simp only [indexedFrom, hname, ih (i + 1) hrest]

theorem eq_indexed_of_names {ms : List (String × Value)} {i : Nat} {xs : List Value}
    (h : Members.names ms = Members.names (indexed i xs)) :
    indexed i (ms.map Prod.snd) = ms := by
  induction ms generalizing i xs with
  | nil => rfl
  | cons m ms ih =>
      cases xs with
      | nil => simp [Members.names, indexed] at h
      | cons x xs =>
          obtain ⟨hname, hrest⟩ :
              m.1 = Decimal.natText i ∧
                Members.names ms = Members.names (indexed (i + 1) xs) := by
            simpa [Members.names, indexed] using h
          simp only [List.map_cons, indexed, ih hrest, ← hname]

theorem indexed_of_indexedFrom {i : Nat} {ms : List (String × Value)}
    (h : indexedFrom i ms = true) : indexed i (ms.map Prod.snd) = ms := by
  induction ms generalizing i with
  | nil => rfl
  | cons m ms ih =>
      rw [indexedFrom, Bool.and_eq_true, beq_iff_eq] at h
      obtain ⟨hname, hrest⟩ := h
      rw [List.map_cons, indexed, ih hrest, ← hname]

theorem entries_of_isSequence {v : Value} (h : v.isSequence = true) :
    v.entries = indexed 0 v.elements := by
  cases v with
  | sequence xs => rfl
  | mapping ms => exact (indexed_of_indexedFrom h).symm
  | _ => cases h

/-! ## Induction -/

theorem size_le_of_mem {x : Value} {xs : List Value} (h : x ∈ xs) :
    x.size ≤ sizeItems xs := by
  induction xs with
  | nil => cases h
  | cons y ys ih =>
      rw [sizeItems]
      rcases List.mem_cons.mp h with rfl | hx
      · omega
      · have hle := ih hx
        omega

theorem size_lt_of_mem_elements {v x : Value} (h : x ∈ v.elements) : x.size < v.size :=
  Nat.lt_of_le_of_lt (size_le_of_mem h) (sizeItems_elements_lt v)

@[elab_as_elim]
theorem elements_induction {motive : Value → Prop}
    (step : ∀ v, (∀ x ∈ v.elements, motive x) → motive v) (v : Value) : motive v :=
  step v fun x _ => elements_induction step x
termination_by v.size
decreasing_by exact size_lt_of_mem_elements ‹_›

/-! ## Nesting -/

mutual
def nesting : Value → Nat
  | .sequence xs => 1 + nestingItems xs
  | .mapping ms => 1 + nestingMembers ms
  | _ => 0

def nestingItems : List Value → Nat
  | [] => 0
  | x :: xs => max x.nesting (nestingItems xs)

def nestingMembers : List (String × Value) → Nat
  | [] => 0
  | (_, v) :: ms => max v.nesting (nestingMembers ms)
end

theorem nestingItems_eq_foldr (xs : List Value) :
    nestingItems xs = (xs.map nesting).foldr max 0 := by
  induction xs with
  | nil => rfl
  | cons x xs ih => rw [nestingItems, ih, List.map_cons, List.foldr_cons]

theorem nestingMembers_eq_nestingItems (ms : List (String × Value)) :
    nestingMembers ms = nestingItems (ms.map Prod.snd) := by
  induction ms with
  | nil => rfl
  | cons m ms ih => simp [nestingMembers, nestingItems, ih]

theorem nesting_of_container {v : Value} (h : v.isContainer = true) :
    v.nesting = 1 + nestingItems v.elements := by
  cases v <;> simp_all [isContainer, nesting, elements, nestingMembers_eq_nestingItems]

theorem nesting_of_not_container {v : Value} (h : v.isContainer = false) :
    v.nesting = 0 := by
  cases v <;> simp_all [isContainer, nesting]

theorem nesting_eq_of_elements {v w : Value} (hv : v.isContainer = true)
    (hw : w.isContainer = true)
    (h : List.Forall₂ (fun x y => y.nesting = x.nesting) v.elements w.elements) :
    w.nesting = v.nesting := by
  have hmap : w.elements.map nesting = v.elements.map nesting :=
    map_eq_of_forall₂ (fun _ _ hxy => hxy) h
  rw [nesting_of_container hv, nesting_of_container hw, nestingItems_eq_foldr,
    nestingItems_eq_foldr, hmap]

private theorem foldl_level (xs : List Value) (d reached : Nat) (h : d ≤ reached) :
    (xs.map (·, d)).foldl (fun n p => max n (p.2 + p.1.nesting)) reached =
      max reached (d + nestingItems xs) := by
  induction xs generalizing reached with
  | nil => simp [nestingItems, h]
  | cons x xs ih =>
      simp only [List.map_cons, List.foldl_cons, nestingItems]
      rw [ih _ (by omega)]
      omega

theorem deepest_eq_foldl (reached : Nat) (waiting : List (Value × Nat)) :
    deepest reached waiting =
      waiting.foldl (fun n p => max n (p.2 + p.1.nesting)) reached := by
  induction reached, waiting using deepest.induct with
  | case1 reached => simp [deepest]
  | case2 reached v d waiting level ih =>
      simp only [level, dite_eq_ite] at ih
      rw [deepest, ih, List.foldl_append, List.foldl_cons]
      congr 1
      cases hv : v.isContainer with
      | true =>
          rw [if_pos rfl, foldl_level _ _ _ (by omega), nesting_of_container hv]
          omega
      | false => simp [elements_of_not_container hv, nesting_of_not_container hv]

theorem depth_eq_nesting (v : Value) : v.depth = v.nesting := by
  simp [depth, deepest_eq_foldl]

/-! ## Leaves -/

mutual
def leaves : Value → List Value
  | .sequence xs => leavesItems xs
  | .mapping ms => leavesMembers ms
  | v => [v]

def leavesItems : List Value → List Value
  | [] => []
  | x :: xs => x.leaves ++ leavesItems xs

def leavesMembers : List (String × Value) → List Value
  | [] => []
  | (_, v) :: ms => v.leaves ++ leavesMembers ms
end

theorem leavesItems_eq_flatMap (xs : List Value) : leavesItems xs = xs.flatMap leaves := by
  induction xs with
  | nil => rfl
  | cons x xs ih => simp [leavesItems, ih]

theorem leavesMembers_eq_flatMap (ms : List (String × Value)) :
    leavesMembers ms = (ms.map Prod.snd).flatMap leaves := by
  induction ms with
  | nil => rfl
  | cons m ms ih => simp [leavesMembers, ih]

theorem leaves_of_container {v : Value} (h : v.isContainer = true) :
    v.leaves = v.elements.flatMap leaves := by
  cases v <;>
    simp_all [isContainer, leaves, elements, leavesItems_eq_flatMap, leavesMembers_eq_flatMap]

theorem leaves_of_not_container {v : Value} (h : v.isContainer = false) :
    v.leaves = [v] := by
  cases v <;> simp_all [isContainer, leaves]

theorem forall_mem_leaves_iff {P : Value → Prop} {v : Value} (h : v.isContainer = true) :
    (∀ y ∈ v.leaves, P y) ↔ ∀ x ∈ v.elements, ∀ y ∈ x.leaves, P y := by
  rw [leaves_of_container h]
  simp only [List.mem_flatMap]
  constructor
  · intro hleaves x hx y hy
    exact hleaves y ⟨x, hx, hy⟩
  · rintro helements y ⟨x, hx, hy⟩
    exact helements x hx y hy

/-- A function that changes a container by changing its elements. -/
structure Leafwise (f : Value → Value) : Prop where
  sequence (xs : List Value) : f (.sequence xs) = .sequence (xs.map f)
  mapping (ms : List (String × Value)) :
    f (.mapping ms) = .mapping (ms.map fun m => (m.1, f m.2))

theorem Leafwise.eq_self_iff {f : Value → Value} (hf : Leafwise f) {P : Value → Prop}
    (hleaf : ∀ y, y.isContainer = false → (f y = y ↔ P y)) (v : Value) :
    f v = v ↔ ∀ y ∈ v.leaves, P y := by
  induction v using elements_induction with
  | step v ih =>
      cases hv : v.isContainer with
      | false => rw [leaves_of_not_container hv, List.forall_mem_singleton, hleaf v hv]
      | true =>
          rw [forall_mem_leaves_iff hv, ← forall₂_congr ih]
          cases v with
          | sequence xs => rw [hf.sequence, Value.sequence.injEq, map_eq_self_iff, elements]
          | mapping ms =>
              rw [hf.mapping, Value.mapping.injEq, map_eq_self_iff, elements, List.forall_mem_map]
              simp only [Prod.ext_iff, true_and]
          | _ => cases hv

end SchemaSieve.Value
