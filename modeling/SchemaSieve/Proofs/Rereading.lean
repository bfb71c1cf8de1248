import SchemaSieve.Proofs.ScalingError
import SchemaSieve.Proofs.WrittenTrees

/-!
# Doubles read from their own texts

The shortest digits of a double round to it, but a document's reader does not round
them: it rounds their integer and a power of ten, and then the product or quotient of
the two.  The double it finds is finite, has the same sign and is only a few magnitudes
away.  It is the same double when the integer and the power are themselves doubles, which
makes the last rounding the only one.
-/

namespace SchemaSieve

namespace Double

/-! ## Signs -/

theorem magnitude_lt (x : Double) : x.magnitude < 2 ^ 63 := Nat.mod_lt _ (by decide)

theorem magnitude_neg (x : Double) : x.neg.magnitude = x.magnitude :=
  magnitude_ofMagnitude x.magnitude_lt

theorem negative_neg (x : Double) : x.neg.negative = !x.negative :=
  negative_ofMagnitude x.magnitude_lt

theorem ext_magnitude {x y : Double} (hsign : x.negative = y.negative)
    (hmagnitude : x.magnitude = y.magnitude) : x = y := by
  rw [eq_ofMagnitude x, eq_ofMagnitude y, hsign, hmagnitude]

theorem equal_iff_of_negative {x y : Double} (hx : x.isFinite = true)
    (hsign : x.negative = y.negative) : x.equal y = true ↔ x = y := by
  simp only [equal, isNaN_of_isFinite hx, Bool.false_eq_true, if_false, Bool.or_eq_true, decide_eq_true_eq,
    Bool.and_eq_true, isZero, or_iff_left_iff_imp]
  rintro ⟨hzero, hzero'⟩
  exact ext_magnitude hsign (hzero.trans hzero'.symm)

/-! ## The double read from the digits -/

/-- The double that the text of a finite double in a document is read as. -/
def reread (x : Double) : Double :=
  match (ofNat (x.shortest .even).literal.1).scaleByTen? (x.shortest .even).literal.2 with
  | some y => if x.negative then y.neg else y
  | none => x

theorem exists_reread {x : Double} (hx : x.isFinite = true) :
    ∃ y, (ofNat (x.shortest .even).literal.1).scaleByTen? (x.shortest .even).literal.2 = some y ∧
      x.reread = (if x.negative then y.neg else y) ∧ y.isFinite = true ∧
      x.reread.magnitude = y.magnitude ∧ x.reread.negative = x.negative := by
  obtain ⟨y, hy, hfinite, hsign⟩ := exists_scaled_shortest hx
  have hreread : x.reread = if x.negative then y.neg else y := by rw [reread, hy]
  refine ⟨y, hy, hreread, hfinite, ?_, ?_⟩
  · rw [hreread]
    split
    · exact y.magnitude_neg
    · rfl
  · rw [hreread]
    cases x.negative with
    | false => exact hsign
    | true => rw [if_pos rfl, negative_neg, hsign]; rfl

theorem isFinite_reread {x : Double} (hx : x.isFinite = true) : x.reread.isFinite = true := by
  obtain ⟨y, -, -, hfinite, hmagnitude, -⟩ := exists_reread hx
  rw [isFinite_iff] at hfinite ⊢
  rwa [hmagnitude]

theorem negative_reread {x : Double} (hx : x.isFinite = true) :
    x.reread.negative = x.negative := by
  obtain ⟨y, -, -, -, -, hsign⟩ := exists_reread hx
  exact hsign

theorem floatNumber_shortest {x : Double} (hx : x.isFinite = true) :
    Json.Reader.floatNumber x.negative (x.shortest .even).literal.1
      (x.shortest .even).literal.2 = some (.float x.reread (isFinite_reread hx)) := by
  obtain ⟨y, hy, hreread, -⟩ := exists_reread hx
  rw [Json.Reader.floatNumber, hy]
  simp only [← hreread]
  exact dif_pos (isFinite_reread hx)

theorem near_reread {x : Double} (hx : x.isFinite = true) :
    x.reread.magnitude ≤ x.magnitude + drift (x.shortest .even).literal.2 ∧
      x.magnitude ≤ x.reread.magnitude + drift (x.shortest .even).literal.2 := by
  obtain ⟨y, hy, -, hfinite, hmagnitude, -⟩ := exists_reread hx
  rw [hmagnitude]
  by_cases hzero : x.magnitude = 0
  · rw [shortest_of_isZero .even hzero] at hy ⊢
    have hy0 : y.magnitude = 0 := by
      have hscaled : (ofNat 0).scaleByTen? (-1) = some (zero false) := by decide +kernel
      cases hscaled.symm.trans hy
      decide
    omega
  · exact near_of_scaled_shortest hzero hfinite hy

/-! ## Exact cases -/

theorem nearest_shortest {x : Double} (hx : x.isFinite = true) :
    nearest (x.shortest .even).value = x.magnitude := by
  rw [isFinite_iff] at hx
  by_cases hzero : x.magnitude = 0
  · have hvalue : (⟨[0], 0⟩ : Digits).value = value 0 := by
      simp [Digits.value, Decimal.ofDigits, value_zero]
    rw [shortest_of_isZero .even hzero, hzero, hvalue, nearest_value (by decide)]
  · obtain ⟨hregular, hround⟩ := roundsTo_shortest .even hzero
    refine nearest_eq_of_roundsTo ?_ hx hround
    rw [Digits.value]
    positivity

theorem exists_shift {n : Nat} (hpos : 0 < n) (hn : n ≤ 2 ^ 53) :
    ∃ s ≤ 52, 2 ^ 52 ≤ n * 2 ^ s ∧ n * 2 ^ s ≤ 2 ^ 53 := by
  have hlog := Nat.log2_self_le hpos.ne'
  have hlog' := Nat.lt_log2_self (n := n)
  rcases Nat.lt_or_ge n (2 ^ 53) with hlt | hge
  · have hle : n.log2 ≤ 52 := Nat.le_of_lt_succ ((Nat.log2_lt hpos.ne').mpr hlt)
    refine ⟨52 - n.log2, by omega, ?_, ?_⟩
    · calc 2 ^ 52 = 2 ^ n.log2 * 2 ^ (52 - n.log2) := by
            rw [← Nat.pow_add, Nat.add_sub_cancel' hle]
        _ ≤ n * 2 ^ (52 - n.log2) := Nat.mul_le_mul_right _ hlog
    · calc n * 2 ^ (52 - n.log2) ≤ 2 ^ (n.log2 + 1) * 2 ^ (52 - n.log2) :=
            Nat.mul_le_mul_right _ hlog'.le
        _ = 2 ^ 53 := by
            rw [← Nat.pow_add]
            congr 1
            omega
  · exact ⟨0, by omega, by omega, by omega⟩

theorem value_nearest_mul_pow {n k : Nat} (hn : n ≤ 2 ^ 53) (hk : k ≤ 22) :
    value (nearest (n * 2 ^ k)) = n * 2 ^ k := by
  rcases Nat.eq_zero_or_pos n with rfl | hpos
  · rw [Nat.cast_zero, zero_mul, show nearest 0 = 0 from rfl, value_zero]
  · obtain ⟨s, hs, hlow, hhigh⟩ := exists_shift hpos hn
    have hvalue : value ((1074 + k - s) * 0x10000000000000 + n * 2 ^ s) = n * 2 ^ k := by
      have hexp : ((1074 + k - s : Nat) : ℤ) - 1074 = (k : ℤ) - s := by omega
      rw [value_carry (.inr hlow) hhigh, hexp, zpow_sub₀ (by norm_num), zpow_natCast,
        zpow_natCast]
      push_cast
      field_simp
    rw [← hvalue, nearest_value]
    simp only [infiniteMagnitude]
    omega

theorem value_ofNat_of_small {n : Nat} (hn : n ≤ 2 ^ 53) : value (ofNat n).magnitude = n := by
  have hexact := value_nearest_mul_pow (k := 0) hn (by decide)
  rw [pow_zero, mul_one] at hexact
  rw [magnitude_ofNat, hexact]

theorem value_powerOfTen_of_small {k : Nat} (hk : k ≤ 22) :
    value (powerOfTen k).magnitude = 10 ^ k := by
  -- only the power of five takes bits of the significand
  have hfive : 5 ^ k ≤ 2 ^ 53 :=
    (Nat.pow_le_pow_right (by decide) hk).trans (by decide)
  have hexact := value_nearest_mul_pow hfive hk
  have hten : ((5 ^ k : Nat) * 2 ^ k : ℚ) = 10 ^ k := by
    push_cast
    rw [← mul_pow]
    norm_num
  rw [hten] at hexact
  rw [magnitude_powerOfTen, hexact]

theorem magnitude_of_scaled_small {n : Nat} {e : ℤ} {y : Double} (hn : n ≤ 2 ^ 53)
    (he : e.natAbs ≤ 22) (h : (ofNat n).scaleByTen? e = some y) :
    y.magnitude = nearest (n * 10 ^ e) := by
  rcases cases_of_scaleByTen? (by omega) h with ⟨k, -, rfl, rfl⟩ | ⟨k, -, rfl, rfl⟩ | ⟨he', -⟩
  · rw [magnitude_div _ (powerOfTen_ne_zero k), value_ofNat_of_small hn,
      value_powerOfTen_of_small (by omega), zpow_neg, zpow_natCast, div_eq_mul_inv]
  · rw [magnitude_mul, value_ofNat_of_small hn, value_powerOfTen_of_small (by omega), zpow_natCast]
  · omega

/-- A double whose digits make a small integer and a small power of ten is read as itself. -/
theorem reread_of_small {x : Double} (hx : x.isFinite = true)
    (hn : (x.shortest .even).literal.1 ≤ 2 ^ 53)
    (he : (x.shortest .even).literal.2.natAbs ≤ 22) : x.reread = x := by
  obtain ⟨y, hy, -, -, hmagnitude, hsign⟩ := exists_reread hx
  refine ext_magnitude hsign ?_
  rw [hmagnitude, magnitude_of_scaled_small hn he hy, Digits.cast_literal, nearest_shortest hx]

end Double

end SchemaSieve
