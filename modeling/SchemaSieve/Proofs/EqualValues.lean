import SchemaSieve.Proofs.DecidableEquality
import SchemaSieve.Proofs.Reordering

/-!
# Equality of values

Mappings are compared by counting their members and looking those of one side up on the other,
sequences item by item, and doubles totally.  `Same` says what comes of this, with one rule for
each way in which two values can be equal.  Names are distinct, so the look-up on one side is one
on both, and values of distinct names are equal exactly if they are the same.  The laws of equality
are then laws of `Same`.
-/

namespace SchemaSieve

theorem Double.not_isZero_of_isNaN {x : Double} (h : x.isNaN = true) : x.isZero = false := by
  simp only [isNaN, isZero, decide_eq_true_eq, decide_eq_false_iff_not] at h ⊢
  omega

theorem Double.equal_iff (x y : Double) : x.equal y = true ↔
    x = y ∨ x.isNaN = true ∧ y.isNaN = true ∨ x.isZero = true ∧ y.isZero = true := by
  unfold equal
  split
  next hx =>
    simp only [hx, not_isZero_of_isNaN hx, true_and, Bool.false_eq_true, false_and, or_false]
    constructor
    · exact .inr
    · rintro (rfl | hy)
      · exact hx
      · exact hy
  next hx => simp [hx]

namespace Value

/-- The values that count as equal: of one kind, with the same members under every name. -/
inductive Same : Value → Value → Prop
  | null : Same .null .null
  | bool (b : Bool) : Same (.bool b) (.bool b)
  | integer (i : Int64) : Same (.integer i) (.integer i)
  | unsigned (u : UInt64) : Same (.unsigned u) (.unsigned u)
  | float (x : Double) : Same (.float x) (.float x)
  | notNumber {x y : Double} (left : x.isNaN = true) (right : y.isNaN = true) :
      Same (.float x) (.float y)
  | zero {x y : Double} (left : x.isZero = true) (right : y.isZero = true) :
      Same (.float x) (.float y)
  | string (s : String) : Same (.string s) (.string s)
  | sequence {xs ys : List Value} (items : List.Forall₂ Same xs ys) :
      Same (.sequence xs) (.sequence ys)
  | mapping {ms ns : Members Value}
      (fields : ∀ name, Option.Rel Same (ms.get? name) (ns.get? name)) :
      Same (.mapping ms) (.mapping ns)

theorem mem_elements_of_get? {ms : Members Value} {name : String} {v : Value}
    (h : ms.get? name = some v) : v ∈ (Value.mapping ms).elements :=
  List.mem_map_of_mem (Members.mem_of_get? h)

namespace Same

variable {v w u : Value}

theorem refl (v : Value) : Same v v := by
  induction v using elements_induction with
  | step v ih =>
      cases v with
      | null => exact .null
      | bool b => exact .bool b
      | integer i => exact .integer i
      | unsigned u => exact .unsigned u
      | float x => exact .float x
      | string s => exact .string s
      | sequence xs => exact .sequence (List.forall₂_same.mpr ih)
      | mapping ms =>
          refine .mapping fun name => ?_
          cases hx : Members.get? ms name with
          | none => exact .none
          | some x => exact .some (ih x (mem_elements_of_get? hx))

theorem symm (h : Same v w) : Same w v := by
  induction v using elements_induction generalizing w with
  | step v ih =>
      cases h with
      | null => exact .null
      | bool b => exact .bool b
      | integer i => exact .integer i
      | unsigned u => exact .unsigned u
      | float x => exact .float x
      | notNumber left right => exact .notNumber right left
      | zero left right => exact .zero right left
      | string s => exact .string s
      | sequence items =>
          exact .sequence (forall₂_imp_of_mem (fun x y hx hxy => ih x hx hxy) items).flip
      | @mapping ms ns fields =>
          have hfields : Members.Agree (flip Same) ms ns :=
            Members.Agree.imp_of_get? fields fun name x y hx _ => ih x (mem_elements_of_get? hx)
          exact .mapping hfields.flip

theorem trans (h : Same v w) (h' : Same w u) : Same v u := by
  induction v using elements_induction generalizing w u with
  | step v ih =>
      cases h with
      | null => exact h'
      | bool b => exact h'
      | integer i => exact h'
      | unsigned u => exact h'
      | float x => exact h'
      | notNumber left right =>
          cases h' with
          | float y => exact .notNumber left right
          | notNumber _ right' => exact .notNumber left right'
          | zero left' _ => simp [Double.not_isZero_of_isNaN right] at left'
      | zero left right =>
          cases h' with
          | float y => exact .zero left right
          | notNumber left' _ => simp [Double.not_isZero_of_isNaN left'] at right
          | zero _ right' => exact .zero left right'
      | string s => exact h'
      | @sequence xs ys items =>
          cases h' with
          | sequence items' =>
              have hitems : List.Forall₂ (fun x y => ∀ z, Same y z → Same x z) xs ys :=
                forall₂_imp_of_mem (fun x y hx hxy z => ih x hx hxy) items
              exact .sequence (forall₂_comp (fun x y z hxy => hxy z) hitems items')
      | @mapping ms ns fields =>
          cases h' with
          | mapping fields' =>
              have hfields : Members.Agree (fun x y => ∀ z, Same y z → Same x z) ms ns :=
                Members.Agree.imp_of_get? fields
                  fun name x y hx _ hxy z => ih x (mem_elements_of_get? hx) hxy
              exact .mapping (Members.Agree.comp (fun x y z hxy => hxy z) hfields fields')

end Same

/-! ## The comparison -/

variable {v w u : Value}

theorem same_of_equal (hv : v.DistinctNames) (hw : w.DistinctNames) (h : v.equal w = true) :
    v.Same w := by
  induction v using elements_induction generalizing w with
  | step v ih =>
      obtain ⟨hnames, hv⟩ := hv.entries
      obtain ⟨hnames', hw⟩ := hw.entries
      cases v with
      | null => cases w <;> simp_all [equal, Same.null]
      | bool b => cases w <;> simp_all [equal, Same.bool]
      | integer i => cases w <;> simp_all [equal, Same.integer]
      | unsigned u => cases w <;> simp_all [equal, Same.unsigned]
      | string s => cases w <;> simp_all [equal, Same.string]
      | float x =>
          cases w with
          | float y =>
              rw [equal, Double.equal_iff] at h
              rcases h with rfl | ⟨hx, hy⟩ | ⟨hx, hy⟩
              · exact .float x
              · exact .notNumber hx hy
              · exact .zero hx hy
          | _ => simp [equal] at h
      | sequence xs =>
          cases w with
          | sequence ys =>
              refine .sequence (forall₂_imp_of_mem_both ?_ (equal_sequence_iff.mp h))
              exact fun x y hx hy => ih x hx (hv x hx) (hw y hy)
          | _ => simp [equal] at h
      | mapping ms =>
          cases w with
          | mapping ns =>
              rw [entries] at hnames hnames'
              rw [equal_mapping_iff_agree hnames hnames'] at h
              refine .mapping (h.imp_of_get? fun name x y hx hy => ?_)
              have hx' := mem_elements_of_get? hx
              exact ih x hx' (hv x hx') (hw y (mem_elements_of_get? hy))
          | _ => simp [equal] at h

theorem equal_of_same (hv : v.DistinctNames) (hw : w.DistinctNames) (h : v.Same w) :
    v.equal w = true := by
  induction v using elements_induction generalizing w with
  | step v ih =>
      obtain ⟨hnames, hv⟩ := hv.entries
      obtain ⟨hnames', hw⟩ := hw.entries
      cases h with
      | float x => exact x.equal_self
      | notNumber left right => exact (Double.equal_iff _ _).mpr (.inr (.inl ⟨left, right⟩))
      | zero left right => exact (Double.equal_iff _ _).mpr (.inr (.inr ⟨left, right⟩))
      | sequence items =>
          refine equal_sequence_iff.mpr (forall₂_imp_of_mem_both ?_ items)
          exact fun x y hx hy => ih x hx (hv x hx) (hw y hy)
      | mapping fields =>
          rw [entries] at hnames hnames'
          rw [equal_mapping_iff_agree hnames hnames']
          refine Members.Agree.imp_of_get? fields fun name x y hx hy => ?_
          have hx' := mem_elements_of_get? hx
          exact ih x hx' (hv x hx') (hw y (mem_elements_of_get? hy))
      | _ => simp [equal]

theorem equal_iff_same (hv : v.DistinctNames) (hw : w.DistinctNames) :
    v.equal w = true ↔ v.Same w :=
  ⟨same_of_equal hv hw, equal_of_same hv hw⟩

end Value

open Value

/-- Equality of values with distinct names is an equivalence relation.  Equal values are of one
kind and have the same members under every name, whatever their order, the same items in order,
or doubles that are one, both zero or both no numbers; so it does not matter in which order the
members of any mapping in a value are. -/
theorem equal_equivalence {v w u : Value} (hv : v.DistinctNames) (hw : w.DistinctNames)
    (hu : u.DistinctNames) :
    v.equal v = true ∧ v.equal w = w.equal v ∧
      (v.equal w = true → w.equal u = true → v.equal u = true) ∧
      (v.equal w = true ↔ v.Same w) ∧ ∀ v', v.Reordered v' → v.equal v' = true := by
  refine ⟨(equal_iff_same hv hv).mpr (.refl v), ?_, ?_, equal_iff_same hv hw,
    fun v' hmoved => hmoved.equal hv⟩
  · rw [Bool.eq_iff_iff, equal_iff_same hv hw, equal_iff_same hw hv]
    exact ⟨Same.symm, Same.symm⟩
  · rw [equal_iff_same hv hw, equal_iff_same hw hu, equal_iff_same hv hu]
    exact Same.trans

theorem equal_equivalence_special_doubles :
    let other : Double := .ofMagnitude true (Double.infiniteMagnitude + 1)
    let v : Value := .mapping [("a", .sequence [.float .nan]), ("b", .float (.zero false))]
    let w : Value := .mapping [("b", .float (.zero true)), ("a", .sequence [.float other])]
    let v' : Value := .mapping [("b", .float (.zero false)), ("a", .sequence [.float .nan])]
    v.equal w = true ∧ w.equal v' = true ∧ v.Reordered v' ∧
      v.equal v = true ∧ w.equal v = true ∧ v.equal v' = true ∧ v.Same w := by
  intro other v w v'
  have hpair : ∀ {a b : String} {x y : Value}, a ≠ b → x.DistinctNames → y.DistinctNames →
      (Value.mapping [(a, x), (b, y)]).DistinctNames := by
    intro a b x y hab hx hy
    refine .mapping (by simpa [Members.names] using hab) fun m hm => ?_
    rcases List.mem_pair.mp hm with rfl | rfl
    · exact hx
    · exact hy
  have hfloat : ∀ x : Double, (Value.float x).DistinctNames := fun x => .scalar rfl
  have hitem : ∀ x : Double, (Value.sequence [.float x]).DistinctNames := by
    intro x
    refine .sequence fun y hy => ?_
    rw [List.mem_singleton.mp hy]
    exact hfloat x
  have hv : v.DistinctNames := hpair (by decide) (hitem _) (hfloat _)
  have hw : w.DistinctNames := hpair (by decide) (hfloat _) (hitem _)
  have hv' : v'.DistinctNames := hpair (by decide) (hfloat _) (hitem _)
  have hvw : v.equal w = true := by decide +kernel
  have hwv' : w.equal v' = true := by decide +kernel
  have hmoved : v.Reordered v' :=
    .mapping (.swap _ _ []) rfl (List.forall₂_same.mpr fun x _ => .refl x)
  obtain ⟨hrefl, hsymm, htrans, hsame, -⟩ := equal_equivalence hv hw hv'
  exact ⟨hvw, hwv', hmoved, hrefl, hsymm ▸ hvw, htrans hvw hwv', hsame.mp hvw⟩

end SchemaSieve
