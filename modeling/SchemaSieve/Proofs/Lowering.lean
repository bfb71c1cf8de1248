import SchemaSieve.Proofs.Equality
import SchemaSieve.Proofs.Lines
import SchemaSieve.Proofs.ValueTexts

/-!
# Lifting and lowering

A tree that is lifted to a value and lowered again is the same tree.  The other way round two
kinds of leaves change: a double that is no finite number is lowered to `null`, and an unsigned
integer that has a place in the signed range is lifted as a signed one.  A value without such
leaves comes back, and any other comes back as a value that is not equal to it.
-/

namespace SchemaSieve

namespace Value

/-! ## From trees -/

theorem toJson_ofNumber (num : Number) : (ofNumber num).toJson = .number num := by
  cases num with
  | integer n range =>
      rw [ofNumber]
      split
      next hsmall =>
        have hn : (Int64.ofInt n).toInt = n := Int64.toInt_ofInt_of_le range.1 hsmall
        simp only [toJson, Number.ofInt64, hn]
      next hlarge =>
        have hn : ((UInt64.ofNat n.toNat).toNat : Int) = n := by
          have hsize : UInt64.size = 0x10000000000000000 := rfl
          rw [UInt64.toNat_ofNat_of_lt' (by omega)]
          omega
        simp only [toJson, Number.ofUInt64, hn]
  | float x finite => simp only [ofNumber, toJson, Number.ofDouble?, dif_pos finite]

theorem toJson_ofJson (j : Json) : (ofJson j).toJson = j := by
  induction j using Json.parts_induction with
  | number n => exact toJson_ofNumber n
  | array xs ih =>
      rw [ofJson, toJson, toItems_eq_map, ofItems_eq_map, List.map_map, Json.array.injEq]
      exact map_eq_self_iff.mpr ih
  | object ms ih =>
      rw [ofJson, toJson, toMembers_eq_map, ofMembers_eq_map, List.map_map, Json.object.injEq]
      exact map_eq_self_iff.mpr fun m hm => Prod.ext rfl (ih m hm)
  | _ => rfl

/-! ## From values -/

def relifted (v : Value) : Value := ofJson v.toJson

/-- A leaf that has a form of its own among the scalars of trees. -/
def HasScalar : Value → Prop
  | .float x => x.isFinite = true
  | .unsigned u => Int64.maxValue.toInt < u.toNat
  | _ => True

theorem leafwise_relifted : Leafwise relifted where
  sequence xs := by
    rw [relifted, toJson, ofJson, toItems_eq_map, ofItems_eq_map, List.map_map]
    rfl
  mapping ms := by
    rw [relifted, toJson, ofJson, toMembers_eq_map, ofMembers_eq_map, List.map_map]
    rfl

theorem relifted_integer (i : Int64) : (Value.integer i).relifted = .integer i := by
  have hsmall : i.toInt < 0x8000000000000000 := i.toInt_lt
  simp only [relifted, toJson, ofJson, Number.ofInt64, ofNumber, if_pos hsmall, Int64.ofInt_toInt]

theorem relifted_unsigned (u : UInt64) : (Value.unsigned u).relifted =
    if Int64.maxValue.toInt < u.toNat then .unsigned u else .integer (.ofInt u.toNat) := by
  have hmax : Int64.maxValue.toInt = 0x8000000000000000 - 1 := rfl
  have hsmall : (u.toNat : Int) < 0x8000000000000000 ↔ ¬ Int64.maxValue.toInt < u.toNat := by omega
  simp only [relifted, toJson, ofJson, Number.ofUInt64, ofNumber, hsmall, ite_not,
    Int.toNat_natCast, UInt64.ofNat_toNat]

theorem relifted_float (x : Double) :
    (Value.float x).relifted = if x.isFinite then .float x else .null := by
  rw [relifted, toJson, Number.ofDouble?]
  split_ifs <;> rfl

theorem relifted_eq_self_iff_of_leaf {v : Value} (hv : v.isContainer = false) :
    v.relifted = v ↔ v.HasScalar := by
  cases v with
  | integer i => simp [relifted_integer, HasScalar]
  | unsigned u => simp [relifted_unsigned, HasScalar]
  | float x => simp [relifted_float, HasScalar]
  | sequence xs => cases hv
  | mapping ms => cases hv
  | _ => exact iff_of_true rfl trivial

theorem equal_relifted_iff_of_leaf {v : Value} (hv : v.isContainer = false) :
    v.relifted.equal v = true ↔ v.HasScalar := by
  constructor
  · intro h
    cases v with
    | unsigned u =>
        rw [HasScalar]
        by_contra hu
        simp [relifted_unsigned, hu, equal] at h
    | float x =>
        rw [HasScalar]
        by_contra hx
        simp [relifted_float, hx, equal] at h
    | _ => trivial
  · intro h
    rw [(relifted_eq_self_iff_of_leaf hv).mpr h]
    exact equal_self_of_leaf hv

theorem relifted_eq_self_iff (v : Value) : v.relifted = v ↔ ∀ y ∈ v.leaves, y.HasScalar :=
  leafwise_relifted.eq_self_iff (fun _ => relifted_eq_self_iff_of_leaf) v

theorem equal_relifted_iff {v : Value} (h : v.DistinctNames) :
    v.relifted.equal v = true ↔ ∀ y ∈ v.leaves, y.HasScalar :=
  leafwise_relifted.equal_iff (fun _ => equal_relifted_iff_of_leaf) h

theorem forall_hasScalar_iff (ys : List Value) :
    (∀ y ∈ ys, y.HasScalar) ↔ (∀ x, .float x ∈ ys → x.isFinite = true) ∧
      ∀ u, .unsigned u ∈ ys → Int64.maxValue.toInt < u.toNat := by
  constructor
  · exact fun h => ⟨fun x hx => h _ hx, fun u hu => h _ hu⟩
  · rintro ⟨hfinite, hlarge⟩ y hy
    cases y with
    | float x => exact hfinite x hy
    | unsigned u => exact hlarge u hy
    | _ => trivial

end Value

open Value

/-- A value has one compact text, written straight or by way of its tree.  A tree that is lifted
and lowered is the tree it was.  A value that is lowered and lifted is itself exactly if its
doubles are finite and its unsigned integers lie above the signed range; else it is not even
equal to what comes back. -/
theorem lifted_and_lowered (v : Value) (j : Json) :
    v.compact = v.text ∧ (ofJson j).toJson = j ∧
      (ofJson v.toJson = v ↔ (∀ x, .float x ∈ v.leaves → x.isFinite = true) ∧
        ∀ u, .unsigned u ∈ v.leaves → Int64.maxValue.toInt < u.toNat) ∧
      (v.DistinctNames → ((ofJson v.toJson).equal v = true ↔
        (∀ x, .float x ∈ v.leaves → x.isFinite = true) ∧
          ∀ u, .unsigned u ∈ v.leaves → Int64.maxValue.toInt < u.toNat)) := by
  rw [← forall_hasScalar_iff]
  exact ⟨compact_eq_text v, toJson_ofJson j, relifted_eq_self_iff v, equal_relifted_iff⟩

theorem lifted_and_lowered_special_leaves :
    let v : Value := .mapping
      [("n", .sequence [.float .nan, .float (.infinity true)]), ("u", .unsigned 0x7fffffffffffffff)]
    let w : Value := .mapping
      [("u", .unsigned 0x8000000000000000), ("", .sequence [.float (.zero true), .mapping []])]
    v.DistinctNames ∧ v.compact = v.text ∧ (ofJson v.toJson).equal v = false ∧
      w.DistinctNames ∧ (ofJson w.toJson).equal w = true ∧ (ofJson w.toJson).toJson = w.toJson := by
  intro v w
  have hv : v.DistinctNames := by
    refine .mapping (by decide) fun m hm => ?_
    rcases List.mem_pair.mp hm with rfl | rfl
    · refine .sequence fun x hx => ?_
      rcases List.mem_pair.mp hx with rfl | rfl <;> exact .scalar rfl
    · exact .scalar rfl
  have hw : w.DistinctNames := by
    refine .mapping (by decide) fun m hm => ?_
    rcases List.mem_pair.mp hm with rfl | rfl
    · exact .scalar rfl
    · refine .sequence fun x hx => ?_
      rcases List.mem_pair.mp hx with rfl | rfl
      · exact .scalar rfl
      · exact .mapping (by decide) (by simp)
  obtain ⟨htext, -, -, hequal⟩ := lifted_and_lowered v .null
  obtain ⟨-, htree, -, hequal'⟩ := lifted_and_lowered w w.toJson
  refine ⟨hv, htext, ?_, hw, (hequal' hw).mpr ⟨?_, ?_⟩, htree⟩
  · refine Bool.eq_false_iff.mpr fun h => ?_
    have hnan := ((hequal hv).mp h).1 .nan (by simp [v, leaves, leavesMembers, leavesItems])
    exact absurd hnan (by decide)
  · intro x hx
    obtain rfl : x = .zero true := by simpa [w, leaves, leavesMembers, leavesItems] using hx
    decide
  · intro u hu
    obtain rfl : u = 0x8000000000000000 := by simpa [w, leaves, leavesMembers, leavesItems] using hu
    decide

end SchemaSieve
