import SchemaSieve.Double.Rounding
import SchemaSieve.Proofs.FloatLiterals

/-!
# Doubles read from their own digits

A literal is not rounded once: its integer is rounded, and then scaled by a rounded
power of ten.  For the digits of a finite double this never leaves the finite range.
-/

namespace SchemaSieve.Double

/-! ## Powers of ten -/

theorem value_one : value 0x3FF0000000000000 = 1 := by
  have hcarry := value_carry (k := 1022) (r := 2 ^ 52) (.inr le_rfl) (by decide)
  rw [show 0x3FF0000000000000 = 1022 * 0x10000000000000 + 2 ^ 52 by decide, hcarry]
  norm_num

theorem one_le_value_nearest {q : ℚ} (hq : 1 ≤ q) : 1 ≤ value (nearest q) := by
  rw [← value_one]
  apply value_strictMono.monotone
  have hone := nearest_value (m := 0x3FF0000000000000) (by decide)
  rw [← hone, value_one]
  exact nearest_mono zero_le_one hq

theorem magnitude_powerOfTen (k : Nat) : (powerOfTen k).magnitude = nearest (10 ^ k) := by
  rw [powerOfTen, magnitude_ofNat]
  norm_cast

theorem negative_powerOfTen (k : Nat) : (powerOfTen k).negative = false := negative_ofNat _

theorem one_le_value_powerOfTen (k : Nat) : 1 ≤ value (powerOfTen k).magnitude := by
  rw [magnitude_powerOfTen]
  exact one_le_value_nearest (one_le_pow₀ (by norm_num))

theorem powerOfTen_ne_zero (k : Nat) : (powerOfTen k).magnitude ≠ 0 := by
  intro hzero
  have hone := one_le_value_powerOfTen k
  rw [hzero, value_zero] at hone
  exact absurd hone (by norm_num)

/-! ## Steps of scaling -/

theorem cases_of_scaleByTen? {x y : Double} {e : ℤ} (hlow : -308 ≤ e)
    (h : x.scaleByTen? e = some y) :
    (∃ k : Nat, k ≤ 308 ∧ e = -(k : ℤ) ∧ y = x.div (powerOfTen k)) ∨
      (∃ k : Nat, k ≤ 308 ∧ e = k ∧ y = x.mul (powerOfTen k)) ∨
      (308 < e ∧ x.isZero = true) := by
  rw [scaleByTen?, if_neg (not_lt.mpr hlow)] at h
  split at h
  · rename_i hneg
    obtain ⟨k, rfl⟩ : ∃ k : Nat, e = -(k : ℤ) := ⟨e.natAbs, by omega⟩
    rw [neg_neg, Int.toNat_natCast, Option.some.injEq] at h
    exact .inl ⟨k, by omega, rfl, h.symm⟩
  · rename_i hnonneg
    obtain ⟨k, rfl⟩ := Int.eq_ofNat_of_zero_le (not_lt.mp hnonneg)
    split at h
    · rename_i hhigh
      simp only [Int.toNat_natCast] at h
      split at h
      · cases h
        exact .inr (.inl ⟨k, by omega, rfl, rfl⟩)
      · cases h
    · rename_i hhigh
      split at h
      · rename_i hzero
        exact .inr (.inr ⟨not_le.mp hhigh, hzero⟩)
      · cases h

theorem scaleByTen?_of_lt {x : Double} {e : ℤ} (he : e < -308) (hzero : x.isZero = false) :
    x.scaleByTen? e = (x.div (powerOfTen 308)).scaleByTen? (e + 308) := by
  rw [scaleByTen?, if_pos he, hzero, if_neg Bool.false_ne_true]

/-! ## Scaling down -/

theorem magnitude_div_powerOfTen_le {x : Double} (hx : x.isFinite = true) (k : Nat) :
    (x.div (powerOfTen k)).magnitude ≤ x.magnitude := by
  have hone := one_le_value_powerOfTen k
  have hle : value x.magnitude / value (powerOfTen k).magnitude ≤ value x.magnitude :=
    div_le_self (value_nonneg _) hone
  have hpos := div_nonneg (value_nonneg x.magnitude) (value_nonneg (powerOfTen k).magnitude)
  calc (x.div (powerOfTen k)).magnitude
      = nearest (value x.magnitude / value (powerOfTen k).magnitude) :=
        magnitude_div x (powerOfTen_ne_zero k)
    _ ≤ nearest (value x.magnitude) := nearest_mono hpos hle
    _ = x.magnitude := nearest_value ((isFinite_iff x).mp hx)

theorem exists_scaled_of_neg {x : Double} {e : ℤ} (he : e < 0) (hx : x.isFinite = true)
    (hsign : x.negative = false) :
    ∃ y, x.scaleByTen? e = some y ∧ y.isFinite = true ∧ y.negative = false := by
  have hdiv : ∀ (x : Double) (k : Nat), x.isFinite = true → x.negative = false →
      (x.div (powerOfTen k)).isFinite = true ∧ (x.div (powerOfTen k)).negative = false := by
    intro x k hx hsign
    refine ⟨?_, ?_⟩
    · rw [isFinite_iff] at hx ⊢
      exact (magnitude_div_powerOfTen_le ((isFinite_iff x).mpr hx) k).trans_lt hx
    · rw [negative_div x (powerOfTen_ne_zero k), hsign, negative_powerOfTen]
      rfl
  induction x, e using scaleByTen?.induct with
  | case1 x e hlow hzero =>
      rw [scaleByTen?, if_pos hlow, if_pos hzero]
      exact ⟨x, rfl, hx, hsign⟩
  | case2 x e hlow hzero ih =>
      rw [scaleByTen?, if_pos hlow, if_neg hzero]
      obtain ⟨hfinite, hpositive⟩ := hdiv x 308 hx hsign
      exact ih (by omega) hfinite hpositive
  | case3 x e hlow hneg =>
      rw [scaleByTen?, if_neg hlow, if_pos hneg]
      exact ⟨_, rfl, hdiv x _ hx hsign⟩
  | case4 x e hlow hneg => omega
  | case5 x e hlow hneg => omega
  | case6 x e hlow hneg => omega
  | case7 x e hlow hneg => omega

/-! ## Scaling up -/

theorem magnitude_mul_mono {w x y z : Double} (hwy : w.magnitude ≤ y.magnitude)
    (hxz : x.magnitude ≤ z.magnitude) : (w.mul x).magnitude ≤ (y.mul z).magnitude := by
  rw [magnitude_mul, magnitude_mul]
  apply nearest_mono (mul_nonneg (value_nonneg _) (value_nonneg _))
  exact mul_le_mul (value_strictMono.monotone hwy) (value_strictMono.monotone hxz)
    (value_nonneg _) (value_nonneg _)

theorem magnitude_ofNat_mono {m n : Nat} (h : m ≤ n) :
    (ofNat m).magnitude ≤ (ofNat n).magnitude := by
  rw [magnitude_ofNat, magnitude_ofNat]
  exact nearest_mono (Nat.cast_nonneg m) (by exact_mod_cast h)

theorem magnitude_powerOfTen_mono {j k : Nat} (h : j ≤ k) :
    (powerOfTen j).magnitude ≤ (powerOfTen k).magnitude :=
  magnitude_ofNat_mono (Nat.pow_le_pow_right (by decide) h)

def greatestMidpoint : Nat := 0x3FFFFFFFFFFFFD * 2 ^ 970

theorem greatestMidpoint_eq : greatestMidpoint = 0x3FFFFFFFFFFFFD * (2 ^ 194) ^ 5 := by
  rw [greatestMidpoint, ← pow_mul]

theorem pow_le_greatestMidpoint {k : Nat} (hk : k ≤ 308) : 10 ^ k ≤ greatestMidpoint := by
  calc 10 ^ k ≤ 10 ^ (154 * 2) := pow_le_pow_right₀ (by decide) hk
    _ = (10 ^ 154) ^ 2 := pow_mul ..
    _ ≤ 0x3FFFFFFFFFFFFD * (2 ^ 194) ^ 5 := by norm_num
    _ = greatestMidpoint := greatestMidpoint_eq.symm

theorem greatestMidpoint_lt_pow : greatestMidpoint < 10 ^ 309 := by
  have hten : 10 ^ 309 = (10 ^ 103) ^ 3 := by rw [← pow_mul]
  rw [greatestMidpoint_eq, hten]
  norm_num

/-- The greatest integer of seventeen digits that is scaled by `10 ^ k`. -/
def greatestScaled (k : Nat) : Nat := min (10 ^ 17) (greatestMidpoint / 10 ^ k)

theorem le_greatestScaled {n k : Nat} (hn : n ≤ 10 ^ 17) (hle : n * 10 ^ k ≤ greatestMidpoint) :
    n ≤ greatestScaled k :=
  Nat.le_min.mpr ⟨hn, (Nat.le_div_iff_mul_le (Nat.pow_pos (by decide))).mpr hle⟩

/-- Checked at each power that brings some integer near the greatest double. -/
theorem isFinite_greatestScaled :
    ∀ i < 18, ((ofNat (greatestScaled (291 + i))).mul (powerOfTen (291 + i))).isFinite = true := by
  decide +kernel

theorem isFinite_mul_powerOfTen {n k : Nat} (hk : k ≤ 308) (hn : n ≤ 10 ^ 17)
    (hle : n * 10 ^ k ≤ greatestMidpoint) : ((ofNat n).mul (powerOfTen k)).isFinite = true := by
  obtain ⟨i, hi, hki, hni⟩ : ∃ i < 18, k ≤ 291 + i ∧ n ≤ greatestScaled (291 + i) := by
    rcases Nat.lt_or_ge k 291 with hlt | hge
    · have hpow := pow_le_greatestMidpoint (k := 17 + (291 + 0)) (by decide)
      rw [pow_add] at hpow
      exact ⟨0, by decide, by omega,
        le_greatestScaled hn ((Nat.mul_le_mul_right _ hn).trans hpow)⟩
    · obtain ⟨i, rfl⟩ := Nat.exists_eq_add_of_le hge
      exact ⟨i, by omega, le_rfl, le_greatestScaled hn hle⟩
  have hlast := isFinite_greatestScaled i hi
  rw [isFinite_iff] at hlast ⊢
  exact (magnitude_mul_mono (magnitude_ofNat_mono hni) (magnitude_powerOfTen_mono hki)).trans_lt
    hlast

theorem isFinite_ofNat {n : Nat} (hn : n < 2 ^ 64) : (ofNat n).isFinite = true :=
  isFinite_ofRatio_one hn

theorem exists_scaled {n : Nat} {e : ℤ} (hpos : 0 < n) (hn : n < 10 ^ 17)
    (hle : (n * 10 ^ e : ℚ) ≤ greatestMidpoint) :
    ∃ y, (ofNat n).scaleByTen? e = some y ∧ y.isFinite = true ∧ y.negative = false := by
  rcases lt_or_ge e 0 with hneg | hnonneg
  · exact exists_scaled_of_neg hneg (isFinite_ofNat (hn.trans (by decide))) (negative_ofNat n)
  · obtain ⟨k, rfl⟩ := Int.eq_ofNat_of_zero_le hnonneg
    have hle' : n * 10 ^ k ≤ greatestMidpoint := by exact_mod_cast hle
    have hk : k ≤ 308 := by
      have hlt : 10 ^ k < 10 ^ 309 :=
        ((Nat.le_mul_of_pos_left _ hpos).trans hle').trans_lt greatestMidpoint_lt_pow
      have hexp : k < 309 := (pow_lt_pow_iff_right₀ (by decide)).mp hlt
      omega
    have hfinite := isFinite_mul_powerOfTen hk hn.le hle'
    have hpositive : ((ofNat n).mul (powerOfTen k)).negative = false := by
      rw [negative_mul, negative_ofNat, negative_powerOfTen]
      rfl
    refine ⟨_, ?_, hfinite, hpositive⟩
    rw [scaleByTen?, if_neg (by omega), if_neg (by omega), if_pos (by omega)]
    simp only [Int.toNat_natCast, hfinite, if_true]

/-! ## The digits of a double -/

theorem value_infinite : value infiniteMagnitude = 2 ^ (1024 : ℤ) := by
  have hcarry := value_carry (k := 2045) (r := 2 ^ 53) (.inr (by decide)) le_rfl
  rw [show infiniteMagnitude = 2045 * 0x10000000000000 + 2 ^ 53 by decide, hcarry]
  have hfull : ((2 ^ 53 : Nat) : ℚ) = 2 ^ (53 : ℤ) := by norm_num
  rw [hfull, ← zpow_add₀ (by norm_num)]
  rfl

theorem cast_mul_two_pow (n e : Nat) : ((n * 2 ^ e : Nat) : ℚ) = n * 2 ^ e := by
  rw [Nat.cast_mul, Nat.cast_pow, Nat.cast_ofNat]

theorem midpoint_eq_greatestMidpoint : midpoint (infiniteMagnitude - 2) = greatestMidpoint := by
  have hcarry := value_carry (k := 2045) (r := 2 ^ 53 - 2) (.inr (by decide)) (by decide)
  have hplace : place (infiniteMagnitude - 2) = 971 := by decide
  have hdouble : (2 : ℚ) ^ (971 : ℤ) = 2 ^ 970 * 2 := by
    rw [← zpow_natCast, ← zpow_add_one₀ (by norm_num)]
    rfl
  rw [midpoint_eq, hplace, show infiniteMagnitude - 2 = 2045 * 0x10000000000000 + (2 ^ 53 - 2) by
    decide, hcarry, show ((2045 : Nat) : ℤ) - 1074 = 971 by decide, hdouble, greatestMidpoint,
    cast_mul_two_pow]
  generalize (2 : ℚ) ^ 970 = u
  norm_num
  ring

theorem scaled_shortest_greatest : ∀ negative : Bool,
    let digits := ((ofMagnitude negative (infiniteMagnitude - 1)).shortest .even).literal
    (ofNat digits.1).scaleByTen? digits.2 = some ⟨0x7fefffffffffffff⟩ := by
  decide +kernel

theorem exists_scaled_shortest {x : Double} (hx : x.isFinite = true) :
    ∃ y, (ofNat (x.shortest .even).literal.1).scaleByTen? (x.shortest .even).literal.2 = some y ∧
      y.isFinite = true ∧ y.negative = false := by
  rw [isFinite_iff] at hx
  by_cases hzero : x.magnitude = 0
  · rw [shortest_of_isZero .even hzero]
    exact exists_scaled_of_neg (by decide) (by decide) (negative_ofNat _)
  · by_cases hlast : x.magnitude = infiniteMagnitude - 1
    · rw [eq_ofMagnitude x, hlast]
      exact ⟨⟨0x7fefffffffffffff⟩, scaled_shortest_greatest x.negative, by decide, by decide⟩
    · obtain ⟨hregular, hround⟩ := roundsTo_shortest .even hzero
      obtain ⟨hpos, hlt⟩ := hregular.literal_lt
      refine exists_scaled hpos hlt ?_
      rw [Digits.cast_literal, ← midpoint_eq_greatestMidpoint]
      exact hround.1.le.trans (midpoint_strictMono.monotone (by omega))

theorem pow_le_of_roundsTo {q : ℚ} {m : Nat} (hm : m ≠ 0) (h : RoundsTo q m) :
    (10 : ℚ) ^ (-359 : ℤ) ≤ q := by
  have hpow : (10 : ℚ) ^ (-359 : ℤ) ≤ midpoint 0 := by
    calc (10 : ℚ) ^ (-359 : ℤ) ≤ (2 ^ (3 : ℤ)) ^ (-359 : ℤ) := by
          rw [zpow_neg, zpow_neg]
          exact inv_anti₀ (by positivity)
            (zpow_le_zpow_left₀ (by decide) (by positivity) (by norm_num))
      _ = 2 ^ (-1077 : ℤ) := (zpow_mul ..).symm
      _ ≤ 2 ^ (-1075 : ℤ) := zpow_le_zpow_right₀ (by norm_num) (by norm_num)
      _ = midpoint 0 := by
          rw [midpoint_eq, value_zero, zero_add, show place 0 = -1075 + 1 by decide,
            zpow_add_one₀ (by norm_num), mul_div_cancel_right₀ _ (by norm_num)]
  exact hpow.trans (h.midpoint_le (Nat.pos_of_ne_zero hm))

theorem natAbs_exponent_shortest_le {x : Double} (hx : x.isFinite = true) :
    (x.shortest .even).exponent.natAbs ≤ 2147483647 := by
  rw [isFinite_iff] at hx
  by_cases hzero : x.magnitude = 0
  · rw [shortest_of_isZero .even hzero]
    decide
  · obtain ⟨hregular, hround⟩ := roundsTo_shortest .even hzero
    have hpos : (1 : ℚ) ≤ Decimal.ofDigits (x.shortest .even).digits := by
      exact_mod_cast hregular.ofDigits_pos
    have hdigits : (Decimal.ofDigits (x.shortest .even).digits : ℚ) <
        10 ^ ((x.shortest .even).digits.length : ℤ) := by
      exact_mod_cast Decimal.ofDigits_lt hregular.lt
    have hlength := hregular.length_le
    have hlow := pow_le_of_roundsTo hzero hround
    have hhigh : (x.shortest .even).value < 2 ^ (1024 : ℤ) := by
      rw [← value_infinite]
      exact hround.1.le.trans_lt (midpoint_lt_value hx)
    rw [Digits.value] at hlow hhigh
    generalize (x.shortest .even).digits.length = n at *
    generalize (Decimal.ofDigits (x.shortest .even).digits : ℚ) = m at *
    generalize (x.shortest .even).exponent = e at *
    have hunit : (0 : ℚ) < 10 ^ (e - n + 1) := by positivity
    have habove : (10 : ℚ) ^ (e - n + 1) < 10 ^ (1024 : ℤ) := by
      calc (10 : ℚ) ^ (e - n + 1) ≤ m * 10 ^ (e - n + 1) := le_mul_of_one_le_left hunit.le hpos
        _ < 2 ^ (1024 : ℤ) := hhigh
        _ ≤ 10 ^ (1024 : ℤ) := zpow_le_zpow_left₀ (by decide) (by norm_num) (by norm_num)
    have hbelow : (10 : ℚ) ^ (-359 : ℤ) < 10 ^ (e + 1) := by
      calc (10 : ℚ) ^ (-359 : ℤ) ≤ m * 10 ^ (e - n + 1) := hlow
        _ < 10 ^ (n : ℤ) * 10 ^ (e - n + 1) := mul_lt_mul_of_pos_right hdigits hunit
        _ = 10 ^ (e + 1) := by
            rw [← zpow_add₀ (by norm_num)]
            congr 1
            omega
    have habove' := (zpow_lt_zpow_iff_right₀ (by norm_num)).mp habove
    have hbelow' := (zpow_lt_zpow_iff_right₀ (by norm_num)).mp hbelow
    omega

end SchemaSieve.Double
