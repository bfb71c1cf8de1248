import SchemaSieve.Proofs.Names

/-!
# Equality of members

Two lists of members count as equal if they are as long and every member of the first has an
equal one of its name in the second.  Trees, types and values all compare their members like
that, so what the comparison says is shown once.  Names are distinct, and then a list is equal
to itself and to every list with the same members.
-/

namespace SchemaSieve

/-! ## Members looked up -/

namespace Members

section

variable {α β : Type}

theorem get?_map (f : α → β) (ms : Members α) (name : String) :
    get? (ms.map fun m => (m.1, f m.2)) name = (ms.get? name).map f := by
  induction ms with
  | nil => rfl
  | cons m ms ih =>
      simp only [List.map_cons, get?, ih]
      split <;> rfl

theorem mem_names_iff_get? {ms : Members α} {name : String} :
    name ∈ ms.names ↔ ∃ a, ms.get? name = some a := by
  constructor
  · intro h
    induction ms with
    | nil => cases h
    | cons m ms ih =>
        by_cases hname : m.1 = name
        · exact ⟨m.2, if_pos hname⟩
        · have hrest : name ∈ names ms := by simpa [names, Ne.symm hname] using h
          simpa only [get?, if_neg hname] using ih hrest
  · rintro ⟨a, h⟩
    exact mem_names_of_get? h

theorem all_members_iff {compare : Members α → Members α → Bool} {equal : α → α → Bool}
    (hnil : ∀ ns, compare [] ns = true)
    (hcons : ∀ m ms ns, compare (m :: ms) ns = ((ns.get? m.1).any (equal m.2) && compare ms ns))
    (ms ns : Members α) :
    compare ms ns = true ↔ ∀ m ∈ ms, ∃ a, ns.get? m.1 = some a ∧ equal m.2 a = true := by
  induction ms with
  | nil => simp [hnil]
  | cons m ms ih =>
      rw [hcons, Bool.and_eq_true, ih, List.forall_mem_cons, Option.any_eq_true]

end

/-! ## Members that agree -/

section

variable {α : Type} {R : α → α → Prop} {ms ns : Members α} {name : String}

def Agree (R : α → α → Prop) (ms ns : Members α) : Prop :=
  ∀ name, Option.Rel R (ms.get? name) (ns.get? name)

theorem Agree.exists_right (h : Agree R ms ns) {a : α} (ha : ms.get? name = some a) :
    ∃ b, ns.get? name = some b ∧ R a b := by
  have hname := h name
  rw [ha] at hname
  cases hb : ns.get? name with
  | none => simp [hb] at hname
  | some b => exact ⟨b, rfl, by simpa [hb] using hname⟩

theorem Agree.flip (h : Agree R ms ns) : Agree (fun a b => R b a) ns ms := by
  intro name
  have hname := h name
  cases hms : ms.get? name <;> cases hns : ns.get? name <;> simp_all

theorem Agree.imp_of_get? {S : α → α → Prop} (h : Agree R ms ns)
    (himp : ∀ name a b, ms.get? name = some a → ns.get? name = some b → R a b → S a b) :
    Agree S ms ns := by
  intro name
  have hname := h name
  cases hms : ms.get? name with
  | none => cases hns : ns.get? name <;> simp_all
  | some a =>
      obtain ⟨b, hb, hab⟩ := h.exists_right hms
      rw [hb]
      exact .some (himp name a b hms hb hab)

theorem Agree.comp {S T : α → α → Prop} {ps : Members α}
    (himp : ∀ a b c, R a b → S b c → T a c) (h : Agree R ms ns) (h' : Agree S ns ps) :
    Agree T ms ps := by
  intro name
  have hname := h name
  have hname' := h' name
  cases hns : ns.get? name with
  | none => cases hms : ms.get? name <;> cases hps : ps.get? name <;> simp_all
  | some b =>
      obtain ⟨a, ha, hab⟩ := h.flip.exists_right hns
      obtain ⟨c, hc, hbc⟩ := h'.exists_right hns
      rw [ha, hc]
      exact .some (himp a b c hab hbc)

theorem Agree.mem_names_iff (h : Agree R ms ns) : name ∈ ms.names ↔ name ∈ ns.names := by
  simp only [mem_names_iff_get?]
  constructor
  · rintro ⟨a, ha⟩
    obtain ⟨b, hb, -⟩ := h.exists_right ha
    exact ⟨b, hb⟩
  · rintro ⟨b, hb⟩
    obtain ⟨a, ha, -⟩ := h.flip.exists_right hb
    exact ⟨a, ha⟩

theorem get?_eq_none_iff : ms.get? name = none ↔ name ∉ ms.names := by
  rw [mem_names_iff_get?, ← Option.ne_none_iff_exists', not_not]

theorem agree_of_found (hms : ms.names.Nodup) (hlen : ms.length = ns.length)
    (hfound : ∀ m ∈ ms, ∃ a, ns.get? m.1 = some a ∧ R m.2 a) : Agree R ms ns := by
  have hdeclared : ∀ name ∈ ms.names, name ∈ ns.names := by
    intro name hname
    obtain ⟨m, hm, rfl⟩ := List.mem_map.mp hname
    obtain ⟨a, ha, -⟩ := hfound m hm
    exact mem_names_of_get? ha
  have hperm := perm_names_of_length_eq hms hdeclared hlen
  intro name
  cases hm : ms.get? name with
  | none =>
      rw [get?_eq_none_iff, hperm.mem_iff, ← get?_eq_none_iff] at hm
      rw [hm]
      exact .none
  | some a =>
      obtain ⟨b, hb, hR⟩ := hfound (name, a) (mem_of_get? hm)
      rw [hb]
      exact .some hR

theorem agree_iff (hms : ms.names.Nodup) (hns : ns.names.Nodup) :
    Agree R ms ns ↔
      ms.length = ns.length ∧ ∀ m ∈ ms, ∃ a, ns.get? m.1 = some a ∧ R m.2 a := by
  constructor
  · intro h
    refine ⟨?_, fun m hm => h.exists_right (get?_of_mem hms hm)⟩
    have hperm := (List.perm_ext_iff_of_nodup hms hns).mpr fun name => h.mem_names_iff
    simpa [names] using hperm.length_eq
  · rintro ⟨hlen, hfound⟩
    exact agree_of_found hms hlen hfound

end

end Members

/-! ## Equal trees -/

theorem Double.equal_self (x : Double) : x.equal x = true := by
  unfold equal
  split <;> simp_all

theorem Number.equal_self (n : Number) : n.equal n = true := by
  cases n with
  | integer n range => simp [equal]
  | float x finite => exact x.equal_self

namespace Json

inductive DistinctNames : Json → Prop
  | scalar {j : Json} (leaf : Reader.IsScalar j) : DistinctNames j
  | array {xs : List Json} (items : ∀ x ∈ xs, DistinctNames x) : DistinctNames (.array xs)
  | object {ms : List (String × Json)} (names : (Members.names ms).Nodup)
      (values : ∀ m ∈ ms, DistinctNames m.2) : DistinctNames (.object ms)

theorem equalMembers_iff (ms ns : List (String × Json)) :
    equalMembers ms ns = true ↔
      ∀ m ∈ ms, ∃ j, Members.get? ns m.1 = some j ∧ m.2.equal j = true := by
  refine Members.all_members_iff (fun ns => by rw [equalMembers]) (fun m ms ns => ?_) ms ns
  rw [equalMembers]
  cases Members.get? ns m.1 <;> rfl

theorem equalItems_self {xs : List Json} (h : ∀ x ∈ xs, x.equal x = true) :
    equalItems xs xs = true := by
  induction xs with
  | nil => rw [equalItems]
  | cons x xs ih =>
      obtain ⟨hx, hxs⟩ := List.forall_mem_cons.mp h
      rw [equalItems, hx, ih hxs, Bool.and_true]

theorem equal_self {j : Json} (h : j.DistinctNames) : j.equal j = true := by
  induction h with
  | @scalar j leaf =>
      cases j with
      | number n => exact n.equal_self
      | array xs => cases leaf
      | object ms => cases leaf
      | _ => simp [equal]
  | array items ih =>
      rw [equal]
      exact equalItems_self ih
  | object names values ih =>
      rw [equal, beq_self_eq_true, Bool.true_and, equalMembers_iff]
      exact fun m hm => ⟨m.2, Members.get?_of_mem names hm, ih m hm⟩

end Json

/-! ## Equal types -/

namespace Descriptor

theorem equalFields_iff (fs gs : List (String × Descriptor)) :
    equalFields fs gs = true ↔
      ∀ f ∈ fs, ∃ d, Members.get? gs f.1 = some d ∧ f.2.equal d = true := by
  refine Members.all_members_iff (fun gs => by rw [equalFields]) (fun f fs gs => ?_) fs gs
  rw [equalFields]
  cases Members.get? gs f.1 <;> rfl

theorem equal_map_iff {s s' : Schema} :
    (Descriptor.map s).equal (.map s') = true ↔
      s.length = s'.length ∧ ∀ f ∈ s, ∃ d, s'.get? f.1 = some d ∧ f.2.equal d = true := by
  rw [equal, Bool.and_eq_true, beq_iff_eq, equalFields_iff]

end Descriptor

/-! ## Equal values -/

namespace Value

theorem equalMembers_iff (ms ns : List (String × Value)) :
    equalMembers ms ns = true ↔
      ∀ m ∈ ms, ∃ w, Members.get? ns m.1 = some w ∧ m.2.equal w = true := by
  refine Members.all_members_iff (fun ns => by rw [equalMembers]) (fun m ms ns => ?_) ms ns
  rw [equalMembers]
  cases Members.get? ns m.1 <;> rfl

theorem equal_sequence_iff {xs ys : List Value} :
    (Value.sequence xs).equal (.sequence ys) = true ↔
      List.Forall₂ (fun x y => x.equal y = true) xs ys := by
  rw [equal]
  induction xs generalizing ys with
  | nil => cases ys <;> simp [equalItems]
  | cons x xs ih => cases ys <;> simp [equalItems, ih]

theorem equal_mapping_iff {ms ns : Members Value} :
    (Value.mapping ms).equal (.mapping ns) = true ↔
      ms.length = ns.length ∧ ∀ m ∈ ms, ∃ w, ns.get? m.1 = some w ∧ m.2.equal w = true := by
  rw [equal, Bool.and_eq_true, beq_iff_eq, equalMembers_iff]

theorem equal_mapping_iff_agree {ms ns : Members Value} (hms : ms.names.Nodup)
    (hns : ns.names.Nodup) :
    (Value.mapping ms).equal (.mapping ns) = true ↔
      Members.Agree (fun v w => v.equal w = true) ms ns := by
  rw [equal_mapping_iff, Members.agree_iff hms hns]

theorem equal_self_of_leaf {v : Value} (h : v.isContainer = false) : v.equal v = true := by
  cases v with
  | float x => exact x.equal_self
  | sequence xs => cases h
  | mapping ms => cases h
  | _ => simp [equal]

theorem Leafwise.equal_iff {f : Value → Value} (hf : Leafwise f) {P : Value → Prop}
    (hleaf : ∀ y, y.isContainer = false → ((f y).equal y = true ↔ P y)) {v : Value}
    (h : v.DistinctNames) : (f v).equal v = true ↔ ∀ y ∈ v.leaves, P y := by
  induction v using elements_induction with
  | step v ih =>
      obtain ⟨hnames, helements⟩ := h.entries
      cases hv : v.isContainer with
      | false => rw [leaves_of_not_container hv, List.forall_mem_singleton, hleaf v hv]
      | true =>
          rw [forall_mem_leaves_iff hv, ← forall₂_congr fun x hx => ih x hx (helements x hx)]
          cases v with
          | sequence xs =>
              rw [hf.sequence, equal_sequence_iff, List.forall₂_map_left_iff, List.forall₂_same,
                elements]
          | mapping ms =>
              rw [entries] at hnames
              rw [hf.mapping, equal_mapping_iff, List.length_map, List.forall_mem_map, elements,
                List.forall_mem_map]
              simp only [true_and]
              exact forall₂_congr fun m hm => by simp [Members.get?_of_mem hnames hm]
          | _ => cases hv

end Value

end SchemaSieve
