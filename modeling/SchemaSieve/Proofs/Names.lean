import Mathlib.Data.List.Nodup
import Mathlib.Data.List.Perm.Subperm
import SchemaSieve.Proofs.Containers
import SchemaSieve.Proofs.Numerals
import SchemaSieve.Proofs.Readers
import SchemaSieve.Sanitizer

/-!
# Distinct names

In a tree no container names two of its entries alike.  Positions name the items of a
sequence apart, a mapping has to keep its names distinct, and a reader that puts each
member into what it has read before does so: whatever a text decodes to has distinct
names, and nests no deeper than the reader goes.
-/

namespace SchemaSieve

/-! ## Names of members -/

namespace Members

variable {α : Type}

theorem mem_of_get? {ms : Members α} {name : String} {a : α}
    (h : ms.get? name = some a) : (name, a) ∈ ms := by
  induction ms with
  | nil => cases h
  | cons m ms ih =>
      simp only [get?] at h
      split at h
      · rename_i hname
        cases h
        rw [← hname]
        exact List.mem_cons_self ..
      · exact List.mem_cons_of_mem _ (ih h)

theorem mem_names_of_get? {ms : Members α} {name : String} {a : α}
    (h : ms.get? name = some a) : name ∈ ms.names :=
  List.mem_map_of_mem (mem_of_get? h)

theorem get?_of_mem {ms : Members α} {name : String} {a : α} (h : ms.names.Nodup)
    (hmem : (name, a) ∈ ms) : ms.get? name = some a := by
  induction ms with
  | nil => cases hmem
  | cons m ms ih =>
      rw [names, List.map_cons, List.nodup_cons] at h
      rcases List.mem_cons.mp hmem with rfl | htail
      · rw [get?, if_pos rfl]
      · have hne : m.1 ≠ name := by
          rintro rfl
          exact h.1 (List.mem_map.mpr ⟨_, htail, rfl⟩)
        rw [get?, if_neg hne]
        exact ih h.2 htail

theorem nodup_names_put {ms : Members α} (name : String) (a : α) (h : ms.names.Nodup) :
    (ms.put name a).names.Nodup := by
  rw [names_put]
  split
  · exact h
  · rename_i hnew
    rw [List.nodup_append]
    refine ⟨h, by simp, ?_⟩
    intro x hx y hy hxy
    rw [List.mem_singleton] at hy
    exact hnew (hy ▸ hxy ▸ hx)

theorem put_of_not_mem {ms : Members α} {name : String} (a : α) (h : name ∉ ms.names) :
    ms.put name a = ms ++ [(name, a)] := by
  induction ms with
  | nil => rfl
  | cons m ms ih =>
      simp only [names, List.map_cons, List.mem_cons, not_or] at h ih
      rw [put, if_neg (Ne.symm h.1), ih h.2, List.cons_append]

theorem mem_put {ms : Members α} {name : String} {a : α} {m : String × α}
    (h : m ∈ ms.put name a) : m ∈ ms ∨ m = (name, a) := by
  induction ms with
  | nil => exact .inr (List.mem_singleton.mp h)
  | cons n ms ih =>
      simp only [put] at h
      split at h
      · rename_i hname
        rcases List.mem_cons.mp h with rfl | hm
        · exact .inr (by rw [hname])
        · exact .inl (List.mem_cons_of_mem _ hm)
      · rcases List.mem_cons.mp h with rfl | hm
        · exact .inl (List.mem_cons_self ..)
        · exact (ih hm).imp_left (List.mem_cons_of_mem _)

theorem names_map {β : Type} (f : α → β) (ms : Members α) :
    names (ms.map fun m => (m.1, f m.2)) = ms.names := by
  rw [names, List.map_map]
  rfl

theorem perm_names_of_length_eq {β : Type} {ms : Members α} {ns : Members β}
    (hnodup : ms.names.Nodup) (hdeclared : ∀ name ∈ ms.names, name ∈ ns.names)
    (hlen : ms.length = ns.length) : ms.names.Perm ns.names := by
  refine (List.subperm_of_subset hnodup hdeclared).perm_of_length_le ?_
  simp only [names, List.length_map]
  omega

end Members

/-! ## Trees -/

open Value

/-- No mapping of a tree has two members of one name. -/
inductive Value.DistinctNames : Value → Prop
  | scalar {v : Value} (leaf : v.isContainer = false) : DistinctNames v
  | sequence {xs : List Value} (items : ∀ x ∈ xs, DistinctNames x) :
      DistinctNames (.sequence xs)
  | mapping {ms : List (String × Value)} (names : (Members.names ms).Nodup)
      (values : ∀ m ∈ ms, DistinctNames m.2) : DistinctNames (.mapping ms)

/-- No object of a tree has two members of one name, and the tree has at most the given
number of container levels. -/
inductive Json.Within : Nat → Json → Prop
  | null (n : Nat) : Within n .null
  | bool (n : Nat) (b : Bool) : Within n (.bool b)
  | number (n : Nat) (num : Number) : Within n (.number num)
  | string (n : Nat) (s : String) : Within n (.string s)
  | array {n : Nat} {xs : List Json} (items : ∀ x ∈ xs, Within n x) :
      Within (n + 1) (.array xs)
  | object {n : Nat} {ms : List (String × Json)} (names : (Members.names ms).Nodup)
      (values : ∀ m ∈ ms, Within n m.2) : Within (n + 1) (.object ms)

namespace Value

theorem nodup_names_indexed (xs : List Value) : (Members.names (indexed 0 xs)).Nodup := by
  rw [names_indexed, ← List.range_eq_range']
  exact List.nodup_range.map Decimal.natText_injective

theorem DistinctNames.entries {v : Value} (h : v.DistinctNames) :
    (Members.names v.entries).Nodup ∧ ∀ x ∈ v.elements, x.DistinctNames := by
  cases h with
  | scalar leaf => cases v <;> simp_all [isContainer, Value.entries, elements, Members.names]
  | sequence items => exact ⟨nodup_names_indexed _, items⟩
  | mapping names values =>
      refine ⟨names, fun x hx => ?_⟩
      obtain ⟨m, hm, rfl⟩ := List.mem_map.mp hx
      exact values m hm

theorem ofItems_eq_map (xs : List Json) : ofItems xs = xs.map ofJson := by
  induction xs with
  | nil => rfl
  | cons x xs ih => simp [ofItems, ih]

theorem ofMembers_eq_map (ms : List (String × Json)) :
    ofMembers ms = ms.map fun m => (m.1, ofJson m.2) := by
  induction ms with
  | nil => rfl
  | cons m ms ih => simp [ofMembers, ih]

theorem names_ofMembers (ms : List (String × Json)) :
    Members.names (ofMembers ms) = Members.names ms := by
  rw [ofMembers_eq_map]
  exact Members.names_map ofJson ms

theorem isContainer_ofNumber (num : Number) : (ofNumber num).isContainer = false := by
  cases num with
  | integer n range =>
      rw [ofNumber]
      split <;> rfl
  | float x finite => rfl

theorem distinctNames_ofJson {n : Nat} {j : Json} (h : j.Within n) :
    (ofJson j).DistinctNames := by
  induction h with
  | null n => exact .scalar rfl
  | bool n b => exact .scalar rfl
  | number n num => exact .scalar (isContainer_ofNumber num)
  | string n s => exact .scalar rfl
  | array items ih =>
      refine .sequence fun x hx => ?_
      rw [ofItems_eq_map] at hx
      obtain ⟨j, hj, rfl⟩ := List.mem_map.mp hx
      exact ih j hj
  | object names values ih =>
      refine .mapping (by rwa [names_ofMembers]) fun m hm => ?_
      rw [ofMembers_eq_map] at hm
      obtain ⟨n, hn, rfl⟩ := List.mem_map.mp hm
      exact ih n hn

theorem nestingItems_le_iff {n : Nat} {xs : List Value} :
    nestingItems xs ≤ n ↔ ∀ x ∈ xs, x.nesting ≤ n := by
  induction xs with
  | nil => simp [nestingItems]
  | cons x xs ih => rw [nestingItems, Nat.max_le, ih, List.forall_mem_cons]

theorem nesting_lt_of_mem_elements {v x : Value} (h : x ∈ v.elements) :
    x.nesting < v.nesting := by
  have hv : v.isContainer = true := by
    by_contra hleaf
    rw [elements_of_not_container (Bool.eq_false_iff.mpr hleaf)] at h
    cases h
  have hle := nestingItems_le_iff.mp (Nat.le_refl _) x h
  rw [nesting_of_container hv]
  omega

theorem nesting_le_succ {n : Nat} {v : Value} (h : ∀ x ∈ v.elements, x.nesting ≤ n) :
    v.nesting ≤ n + 1 := by
  cases hv : v.isContainer with
  | false =>
      rw [nesting_of_not_container hv]
      exact Nat.zero_le _
  | true =>
      have hitems := nestingItems_le_iff.mpr h
      rw [nesting_of_container hv]
      omega

theorem nesting_ofJson_le {n : Nat} {j : Json} (h : j.Within n) : (ofJson j).nesting ≤ n := by
  induction h with
  | null n => exact Nat.zero_le n
  | bool n b => exact Nat.zero_le n
  | number n num =>
      rw [ofJson, nesting_of_not_container (isContainer_ofNumber num)]
      exact Nat.zero_le n
  | string n s => exact Nat.zero_le n
  | array items ih =>
      refine nesting_le_succ fun x hx => ?_
      rw [ofJson, elements, ofItems_eq_map] at hx
      obtain ⟨j, hj, rfl⟩ := List.mem_map.mp hx
      exact ih j hj
  | object names values ih =>
      refine nesting_le_succ fun x hx => ?_
      rw [ofJson, elements, ofMembers_eq_map, List.map_map] at hx
      obtain ⟨m, hm, rfl⟩ := List.mem_map.mp hx
      exact ih m hm

end Value

/-! ## Decoded documents -/

namespace Json.Reader

variable {n : Nat} {s rest : Bytes}

def MembersWithin (n : Nat) (ms : Members Json) : Prop :=
  ms.names.Nodup ∧ ∀ m ∈ ms, m.2.Within n

theorem membersWithin_put {ms : Members Json} {name : String} {j : Json}
    (h : MembersWithin n ms) (hj : j.Within n) : MembersWithin n (ms.put name j) := by
  refine ⟨Members.nodup_names_put name j h.1, fun m hm => ?_⟩
  rcases Members.mem_put hm with hold | rfl
  · exact h.2 m hold
  · exact hj

theorem within_of_isScalar (n : Nat) {j : Json} (h : IsScalar j) : j.Within n := by
  cases j with
  | null => exact .null n
  | bool b => exact .bool n b
  | number num => exact .number n num
  | string s => exact .string n s
  | array xs => cases h
  | object ms => cases h

theorem within_of_reads_items {item : Reader Json} {xs : List Json}
    (hitem : ∀ s j t, Reads item s j t → j.Within n) (h : Reads (items item) s xs rest) :
    (Json.array xs).Within (n + 1) := by
  rcases reads_items.mp h with ⟨-, rfl⟩ | ⟨b, -, -, hrest⟩
  · exact .array (by simp)
  · exact .array (forall_of_reads_itemsFrom hitem hrest)

theorem within_of_reads_members {item : Reader Json} {ms : Members Json}
    (hitem : ∀ s j t, Reads item s j t → j.Within n)
    (h : Reads (members (treeMember item) []) s ms rest) : (Json.object ms).Within (n + 1) := by
  have hempty : MembersWithin n [] := ⟨List.nodup_nil, by simp⟩
  have hmember : ∀ acc name s acc' t, MembersWithin n acc →
      Reads (treeMember item acc name) s acc' t → MembersWithin n acc' := by
    intro acc name s acc' t hacc hread
    simp only [treeMember, reads_bind, reads_pure, reads_within] at hread
    obtain ⟨_, _, -, j, _, hj, rfl, -⟩ := hread
    exact membersWithin_put hacc (hitem _ _ _ hj)
  have hms : MembersWithin n ms := by
    rcases reads_members.mp h with ⟨-, rfl⟩ | ⟨t, -, hrest⟩
    · exact hempty
    · exact invariant_of_reads_membersFrom hmember hempty hrest
  exact .object hms.1 hms.2

theorem within_of_reads_tree (n : Nat) {j : Json} (h : Reads (tree n) s j rest) :
    j.Within n := by
  induction n generalizing s rest j with
  | zero =>
      rcases cases_of_reads_treeWith h with hscalar | hlist | hobject
      · exact within_of_isScalar 0 hscalar
      · simp at hlist
      · simp at hobject
  | succ n ih =>
      rcases cases_of_reads_treeWith h with hscalar | hlist | hobject
      · exact within_of_isScalar (n + 1) hscalar
      · rw [reads_skip_bind, reads_bind] at hlist
        obtain ⟨xs, t, hxs, hpure⟩ := hlist
        obtain ⟨rfl, -⟩ := reads_pure.mp hpure
        exact within_of_reads_items (fun _ _ _ => ih) hxs
      · rw [reads_skip_bind, reads_bind] at hobject
        obtain ⟨ms, t, hms, hpure⟩ := hobject
        obtain ⟨rfl, -⟩ := reads_pure.mp hpure
        exact within_of_reads_members (fun _ _ _ => ih) hms

end Json.Reader

theorem Json.within_of_parse {text : String} {j : Json} (h : Json.parse text = .ok j) :
    j.Within containerLimit := by
  unfold Json.parse Json.Reader.run at h
  cases hread : Json.Reader.document (bytesOf text) with
  | error fault => simp [hread, Except.map] at h
  | ok r =>
      simp only [hread, Except.map, Except.ok.injEq] at h
      have hdocument := Json.Reader.reads_of_eq_ok hread
      rw [Json.Reader.document, Json.Reader.reads_bind] at hdocument
      obtain ⟨j', t, htree, hfinish⟩ := hdocument
      simp only [Json.Reader.reads_bind, Json.Reader.reads_pure] at hfinish
      obtain ⟨_, _, -, hvalue, -⟩ := hfinish
      rw [← h, hvalue]
      exact Json.Reader.within_of_reads_tree _ htree

theorem Value.decode_eq_ok_iff {text : String} {v : Value} :
    Value.decode text = .ok v ↔ ∃ j, Json.parse text = .ok j ∧ ofJson j = v := by
  unfold Value.decode
  cases Json.parse text with
  | ok j => simp
  | error fault => simp

theorem distinctNames_of_decode {text : String} {v : Value} (h : Value.decode text = .ok v) :
    v.DistinctNames := by
  obtain ⟨j, hj, rfl⟩ := decode_eq_ok_iff.mp h
  exact distinctNames_ofJson (Json.within_of_parse hj)

theorem nesting_of_decode {text : String} {v : Value} (h : Value.decode text = .ok v) :
    v.nesting ≤ Json.containerLimit := by
  obtain ⟨j, hj, rfl⟩ := decode_eq_ok_iff.mp h
  exact nesting_ofJson_le (Json.within_of_parse hj)

end SchemaSieve
