import SchemaSieve.Proofs.Scaling

/-!
# How far scaling is off

Rounding changes a number that is not subnormal by a factor of at most `1 + 2 ^ -53`, so
an integer scaled by a power of ten is off by a few such factors, one for each rounding.
Two numbers that differ by so little round to magnitudes that are only a few apart.
-/

namespace SchemaSieve.Double

/-! ## Relative distance -/

/-- Neither number exceeds the other by more than the factor. -/
def Close (c p q : ℚ) : Prop := p ≤ c * q ∧ q ≤ c * p

section Close

variable {c d p q r s : ℚ}

theorem Close.symm (h : Close c p q) : Close c q p := ⟨h.2, h.1⟩

theorem Close.trans (hc : 0 ≤ c) (hd : 0 ≤ d) (h : Close c p q) (h' : Close d q r) :
    Close (c * d) p r := by
  constructor
  · calc p ≤ c * q := h.1
      _ ≤ c * (d * r) := mul_le_mul_of_nonneg_left h'.1 hc
      _ = c * d * r := (mul_assoc ..).symm
  · calc r ≤ d * q := h'.2
      _ ≤ d * (c * p) := mul_le_mul_of_nonneg_left h.2 hd
      _ = c * d * p := by ring

theorem Close.mono (hp : 0 ≤ p) (hq : 0 ≤ q) (h : Close c p q) (hcd : c ≤ d) : Close d p q :=
  ⟨h.1.trans (mul_le_mul_of_nonneg_right hcd hq), h.2.trans (mul_le_mul_of_nonneg_right hcd hp)⟩

theorem Close.mul (hp : 0 ≤ p) (hq : 0 ≤ q) (hr : 0 ≤ r) (hs : 0 ≤ s) (h : Close c p q)
    (h' : Close d r s) : Close (c * d) (p * r) (q * s) := by
  have hleft := mul_le_mul h.1 h'.1 hr (hp.trans h.1)
  have hright := mul_le_mul h.2 h'.2 hs (hq.trans h.2)
  rw [mul_mul_mul_comm] at hleft hright
  exact ⟨hleft, hright⟩

theorem Close.inv (hr : 0 < r) (hs : 0 < s) (h : Close c r s) : Close c r⁻¹ s⁻¹ := by
  constructor
  · rw [inv_le_iff_one_le_mul₀ hr, mul_assoc, inv_mul_eq_div, mul_div_assoc']
    exact (one_le_div hs).mpr h.2
  · rw [inv_le_iff_one_le_mul₀ hs, mul_assoc, inv_mul_eq_div, mul_div_assoc']
    exact (one_le_div hr).mpr h.1

theorem Close.div (hp : 0 ≤ p) (hq : 0 ≤ q) (hr : 0 < r) (hs : 0 < s) (h : Close c p q)
    (h' : Close d r s) : Close (c * d) (p / r) (q / s) := by
  rw [div_eq_mul_inv, div_eq_mul_inv]
  exact h.mul hp hq (inv_nonneg.mpr hr.le) (inv_nonneg.mpr hs.le) (h'.inv hr hs)

end Close

/-! ## One rounding -/

def roundoff : ℚ := 1 + 1 / 2 ^ 53

theorem close_nearest {q : ℚ} (hq : 0 ≤ q) (hlow : 2 ^ 52 < nearest q)
    (hfinite : nearest q < infiniteMagnitude) : Close roundoff (value (nearest q)) q := by
  have hround := roundsTo_nearest hq hfinite
  generalize nearest q = m at *
  obtain ⟨k, r, hm, hplace, hr, hexp, hvalue⟩ := exists_significand m
  have hr' : 2 ^ 52 ≤ r := by omega
  have hcast : (2 ^ 52 : ℚ) ≤ r := by exact_mod_cast hr'
  have hunit : (0 : ℚ) < 2 ^ place m := by positivity
  have hhigh := hround.1.le
  obtain ⟨l, hl⟩ : ∃ l, l + 1 = m := ⟨m - 1, by omega⟩
  have hmid : midpoint l = value m - 2 ^ place l / 2 := by
    rw [midpoint_eq, ← hl, value_succ]
    ring
  have hlow' : value m - 2 ^ place l / 2 ≤ q :=
    hmid ▸ hround.midpoint_le (by omega)
  rw [midpoint_eq] at hhigh
  rw [hvalue] at hlow' hhigh ⊢
  constructor
  · rcases Nat.lt_or_eq_of_le hr' with hlt | rfl
    · have hplaces : (2 : ℚ) ^ place l ≤ 2 ^ place m := by
        apply zpow_le_zpow_right₀ (by norm_num)
        simp only [place]
        omega
      have hcast' : (2 ^ 52 + 1 : ℚ) ≤ r := by exact_mod_cast hlt
      rw [roundoff]
      nlinarith
    · have hfine : place m = place l + 1 := by
        simp only [place] at hexp ⊢
        omega
      have hhalf : (2 : ℚ) ^ place m = 2 ^ place l * 2 := by
        rw [hfine, zpow_add_one₀ (by norm_num)]
      rw [roundoff]
      push_cast at hlow' ⊢
      linarith
  · rw [roundoff]
    nlinarith

/-! ## Neighbours -/

theorem place_mono {l m : Nat} (h : l ≤ m) : place l ≤ place m := by
  simp only [place]
  omega

theorem midpoint_add_le (a n : Nat) : midpoint a + n * 2 ^ place a ≤ midpoint (a + n) := by
  induction n with
  | zero => simp
  | succ n ih =>
      have hfirst : (2 : ℚ) ^ place a ≤ 2 ^ place (a + n) :=
        zpow_le_zpow_right₀ (by norm_num) (place_mono (by omega))
      have hnext : (2 : ℚ) ^ place (a + n) ≤ 2 ^ place (a + n + 1) :=
        zpow_le_zpow_right₀ (by norm_num) (place_mono (by omega))
      rw [midpoint_eq] at ih
      rw [← Nat.add_assoc, midpoint_eq (a + n + 1), value_succ]
      push_cast
      rw [midpoint_eq (a + n)] at ih
      rw [midpoint_eq a]
      linarith

theorem midpoint_le_units (a : Nat) : midpoint a ≤ (2 ^ 53 - 1 / 2) * 2 ^ place a := by
  obtain ⟨k, r, -, -, hr, -, hvalue⟩ := exists_significand a
  have hunit : (0 : ℚ) < 2 ^ place a := by positivity
  have hcast : (r : ℚ) + 1 ≤ 2 ^ 53 := by exact_mod_cast hr
  rw [midpoint_eq, hvalue]
  nlinarith

theorem le_add_of_le_mul {c p q : ℚ} {a b n : Nat} (hc : 1 ≤ c)
    (hn : (c - 1) * (2 ^ 53 - 1 / 2) < n) (hp : RoundsTo p a) (hq : RoundsTo q b)
    (h : q ≤ c * p) : b ≤ a + n := by
  -- `n` units above the midpoint of `a` are more than the factor makes of that midpoint
  by_contra hlt
  have hunit : (0 : ℚ) < 2 ^ place a := by positivity
  have hsteps : midpoint a + n * 2 ^ place a ≤ c * midpoint a := by
    calc midpoint a + n * 2 ^ place a ≤ midpoint (a + n) := midpoint_add_le a n
      _ ≤ q := hq.midpoint_le (not_le.mp hlt)
      _ ≤ c * p := h
      _ ≤ c * midpoint a := mul_le_mul_of_nonneg_left hp.1.le (by linarith)
  have hunits := mul_le_mul_of_nonneg_left (midpoint_le_units a) (sub_nonneg.mpr hc)
  have hfew := mul_lt_mul_of_pos_right hn hunit
  linarith

/-! ## One step of scaling -/

theorem nearest_one : nearest 1 = 0x3FF0000000000000 := by
  rw [← value_one]
  exact nearest_value (by decide)

theorem close_nearest_of_one_le {q : ℚ} (hq : 1 ≤ q) (hfinite : nearest q < infiniteMagnitude) :
    Close roundoff (value (nearest q)) q := by
  have hone := nearest_mono zero_le_one hq
  rw [nearest_one] at hone
  exact close_nearest (by linarith) (by omega) hfinite

theorem close_ofNat {n : Nat} (hpos : 0 < n) (hn : n < 2 ^ 64) :
    Close roundoff (value (ofNat n).magnitude) n := by
  have hfinite := (isFinite_iff _).mp (isFinite_ofNat hn)
  rw [magnitude_ofNat] at hfinite ⊢
  exact close_nearest_of_one_le (by exact_mod_cast hpos) hfinite

theorem powerOfTen_lt_infinite {k : Nat} (hk : k ≤ 308) :
    (powerOfTen k).magnitude < infiniteMagnitude := by
  have hbelow : Below (10 ^ k) (infiniteMagnitude - 1) := by
    left
    calc (10 ^ k : ℚ) ≤ greatestMidpoint := by exact_mod_cast pow_le_greatestMidpoint hk
      _ = midpoint (infiniteMagnitude - 2) := midpoint_eq_greatestMidpoint.symm
      _ < midpoint (infiniteMagnitude - 1) := midpoint_strictMono (by decide)
  have hle := (nearest_le_iff (by positivity) (by decide)).mpr hbelow
  rw [magnitude_powerOfTen]
  exact Nat.lt_of_le_pred (by decide) hle

theorem close_powerOfTen {k : Nat} (hk : k ≤ 308) :
    Close roundoff (value (powerOfTen k).magnitude) (10 ^ k) := by
  have hfinite := powerOfTen_lt_infinite hk
  rw [magnitude_powerOfTen] at hfinite ⊢
  exact close_nearest_of_one_le (one_le_pow₀ (by norm_num)) hfinite

theorem value_powerOfTen_pos (k : Nat) : 0 < value (powerOfTen k).magnitude :=
  zero_lt_one.trans_le (one_le_value_powerOfTen k)

theorem close_mul_powerOfTen {x : Double} {c q : ℚ} {k : Nat} (hk : k ≤ 308) (hq : 0 ≤ q)
    (h : Close c (value x.magnitude) q) :
    Close (c * roundoff) (value x.magnitude * value (powerOfTen k).magnitude) (q * 10 ^ k) :=
  h.mul (value_nonneg _) hq (value_nonneg _) (by positivity) (close_powerOfTen hk)

theorem close_div_powerOfTen {x : Double} {c q : ℚ} {k : Nat} (hk : k ≤ 308) (hq : 0 ≤ q)
    (h : Close c (value x.magnitude) q) :
    Close (c * roundoff) (value x.magnitude / value (powerOfTen k).magnitude) (q / 10 ^ k) :=
  h.div (value_nonneg _) hq (value_powerOfTen_pos k) (by positivity) (close_powerOfTen hk)

/-! ## The first of two steps -/

theorem close_of_ratio {x : Double} {n d k : Nat} (hd : 0 < d) (hk : 0 < k)
    (hlow : x.ratio.1 * d * k ≤ (k + 1) * (n * x.ratio.2))
    (hhigh : n * x.ratio.2 * k ≤ (k + 1) * (x.ratio.1 * d)) :
    Close (1 + 1 / k) (value x.magnitude) (n / d) := by
  have hratio : (0 : ℚ) < x.ratio.2 := by exact_mod_cast ratio_pos x
  have hd' : (0 : ℚ) < d := by exact_mod_cast hd
  have hk' : (0 : ℚ) < k := by exact_mod_cast hk
  have hlow' : (x.ratio.1 * d * k : ℚ) ≤ (k + 1) * (n * x.ratio.2) := by exact_mod_cast hlow
  have hhigh' : (n * x.ratio.2 * k : ℚ) ≤ (k + 1) * (x.ratio.1 * d) := by exact_mod_cast hhigh
  have hfactor : (1 + 1 / k : ℚ) = (k + 1) / k := by field_simp
  rw [← cast_ratio, hfactor]
  constructor
  · rw [div_mul_div_comm, div_le_div_iff₀ hratio (mul_pos hk' hd')]
    linarith
  · rw [div_mul_div_comm, div_le_div_iff₀ hd' (mul_pos hk' hratio)]
    linarith

theorem cast_pow_ten (k : Nat) : ((Nat.pow 10 k : Nat) : ℚ) = 10 ^ k := by
  rw [Nat.pow_eq, Nat.cast_pow, Nat.cast_ofNat]

theorem close_powerOfTen_of_ratio {i k : Nat} (hk : 0 < k)
    (hlow : (powerOfTen i).ratio.1 * 1 * k ≤ (k + 1) * (Nat.pow 10 i * (powerOfTen i).ratio.2))
    (hhigh : Nat.pow 10 i * (powerOfTen i).ratio.2 * k ≤ (k + 1) * ((powerOfTen i).ratio.1 * 1)) :
    Close (1 + 1 / k) (value (powerOfTen i).magnitude) (10 ^ i) := by
  have hclose := close_of_ratio Nat.one_pos hk hlow hhigh
  rwa [cast_pow_ten, Nat.cast_one, div_one] at hclose

def lastPowerError : ℚ := 1 + 1 / (2 ^ 56 : Nat)

theorem close_lastPower : Close lastPowerError (value (powerOfTen 308).magnitude) (10 ^ 308) :=
  close_powerOfTen_of_ratio (by decide) (by decide +kernel) (by decide +kernel)

theorem close_first_step_small {n : Nat} (hn : n = 1 ∨ n = 2) :
    Close roundoff (value ((ofNat n).div (powerOfTen 308)).magnitude) (n / 10 ^ 308) := by
  have hroundoff : roundoff = 1 + 1 / (2 ^ 53 : Nat) := by
    rw [roundoff, Nat.cast_pow, Nat.cast_ofNat]
  rw [hroundoff, ← cast_pow_ten]
  rcases hn with rfl | rfl
  · exact close_of_ratio (by decide +kernel) (by decide) (by decide +kernel) (by decide +kernel)
  · exact close_of_ratio (by decide +kernel) (by decide) (by decide +kernel) (by decide +kernel)

theorem one_le_lastPowerError : 1 ≤ lastPowerError := by norm_num [lastPowerError]

theorem one_le_roundoff : 1 ≤ roundoff := by norm_num [roundoff]

theorem magnitude_div_powerOfTen_mono {x y : Double} (k : Nat)
    (h : x.magnitude ≤ y.magnitude) :
    (x.div (powerOfTen k)).magnitude ≤ (y.div (powerOfTen k)).magnitude := by
  rw [magnitude_div _ (powerOfTen_ne_zero k), magnitude_div _ (powerOfTen_ne_zero k)]
  apply nearest_mono (div_nonneg (value_nonneg _) (value_nonneg _))
  exact div_le_div_of_nonneg_right (value_strictMono.monotone h) (value_nonneg _)

theorem close_first_step {n : Nat} (hpos : 0 < n) (hn : n < 2 ^ 64) :
    Close (roundoff * (roundoff * lastPowerError))
      (value ((ofNat n).div (powerOfTen 308)).magnitude) (n / 10 ^ 308) := by
  have hone := one_le_roundoff
  have hone' := one_le_lastPowerError
  rcases Nat.lt_or_ge n 3 with hsmall | hlarge
  · refine (close_first_step_small (by omega)).mono (value_nonneg _) (by positivity) ?_
    exact le_mul_of_one_le_right (by linarith) (one_le_mul_of_one_le_of_one_le hone hone')
  · have hquotient := (close_ofNat hpos hn).div (value_nonneg _) n.cast_nonneg
      (value_powerOfTen_pos 308) (by positivity) close_lastPower
    have hnormal : 2 ^ 52 < ((ofNat n).div (powerOfTen 308)).magnitude := by
      have hthree : 2 ^ 52 < ((ofNat 3).div (powerOfTen 308)).magnitude := by decide +kernel
      exact hthree.trans_le (magnitude_div_powerOfTen_mono 308 (magnitude_ofNat_mono hlarge))
    have hfinite : ((ofNat n).div (powerOfTen 308)).magnitude < infiniteMagnitude :=
      (magnitude_div_powerOfTen_le (isFinite_ofNat hn) 308).trans_lt
        ((isFinite_iff _).mp (isFinite_ofNat hn))
    rw [magnitude_div _ (powerOfTen_ne_zero 308)] at hnormal hfinite ⊢
    have hround := close_nearest (div_nonneg (value_nonneg _) (value_nonneg _)) hnormal hfinite
    exact hround.trans (by linarith) (mul_nonneg (by linarith) (by linarith)) hquotient

/-! ## Scaling -/

def scalingError (e : ℤ) : ℚ :=
  if e < -308 then roundoff * (roundoff * lastPowerError) * roundoff else roundoff * roundoff

theorem exists_close_of_scaled {n : Nat} {e : ℤ} {y : Double} (hpos : 0 < n) (hn : n < 2 ^ 64)
    (he : -616 ≤ e) (h : (ofNat n).scaleByTen? e = some y) :
    ∃ z, 0 ≤ z ∧ y.magnitude = nearest z ∧ Close (scalingError e) z (n * 10 ^ e) := by
  have hclose := close_ofNat hpos hn
  have hzero : (ofNat n).isZero = false := by
    have hle : (ofNat 1).magnitude ≤ (ofNat n).magnitude := magnitude_ofNat_mono hpos
    have hfirst : (ofNat 1).magnitude ≠ 0 := by decide
    exact decide_eq_false (by omega)
  by_cases hlow : e < -308
  · -- two steps, and no more: what is left of the exponent is at least `-308`
    rw [scaleByTen?_of_lt hlow hzero] at h
    rw [scalingError, if_pos hlow]
    rcases cases_of_scaleByTen? (by omega) h with ⟨k, hk, he', rfl⟩ | ⟨k, -, he', -⟩ | ⟨he', -⟩
    · have hexact : (n / 10 ^ 308 / 10 ^ k : ℚ) = n * 10 ^ e := by
        rw [div_div, ← pow_add, show e = -((308 + k : Nat) : ℤ) by omega, zpow_neg, zpow_natCast,
          div_eq_mul_inv]
      rw [← hexact, magnitude_div _ (powerOfTen_ne_zero k)]
      exact ⟨_, div_nonneg (value_nonneg _) (value_nonneg _), rfl,
        close_div_powerOfTen hk (by positivity) (close_first_step hpos hn)⟩
    · omega
    · omega
  · rw [scalingError, if_neg hlow]
    rcases cases_of_scaleByTen? (not_lt.mp hlow) h with
      ⟨k, hk, rfl, rfl⟩ | ⟨k, hk, rfl, rfl⟩ | ⟨-, hzero'⟩
    · rw [magnitude_div _ (powerOfTen_ne_zero k), zpow_neg, zpow_natCast, ← div_eq_mul_inv]
      exact ⟨_, div_nonneg (value_nonneg _) (value_nonneg _), rfl,
        close_div_powerOfTen hk n.cast_nonneg hclose⟩
    · rw [magnitude_mul, zpow_natCast]
      exact ⟨_, mul_nonneg (value_nonneg _) (value_nonneg _), rfl,
        close_mul_powerOfTen hk n.cast_nonneg hclose⟩
    · rw [hzero] at hzero'
      cases hzero'

/-! ## The digits of a double -/

/-- How many magnitudes the scaled digits of a double can be away from it, by the power of
ten: very small ones are scaled in two steps. -/
def drift (e : ℤ) : Nat := if e < -308 then 4 else 2

theorem one_le_scalingError (e : ℤ) : 1 ≤ scalingError e := by
  unfold scalingError
  split <;> norm_num [roundoff, lastPowerError]

theorem scalingError_lt_drift (e : ℤ) : (scalingError e - 1) * (2 ^ 53 - 1 / 2) < drift e := by
  unfold scalingError drift
  split <;> norm_num [roundoff, lastPowerError]

theorem le_exponent_literal {x : Double} (hx : x.magnitude ≠ 0) :
    -616 ≤ (x.shortest .even).literal.2 := by
  obtain ⟨hregular, hround⟩ := roundsTo_shortest .even hx
  have hlow := pow_le_of_roundsTo hx hround
  have hlt : ((x.shortest .even).literal.1 : ℚ) < 10 ^ (17 : ℤ) := by
    exact_mod_cast hregular.literal_lt.2
  rw [← Digits.cast_literal] at hlow
  generalize (x.shortest .even).literal = p at *
  have hpow : (10 : ℚ) ^ (-359 : ℤ) < 10 ^ (17 + p.2) := by
    calc (10 : ℚ) ^ (-359 : ℤ) ≤ p.1 * 10 ^ p.2 := hlow
      _ < 10 ^ (17 : ℤ) * 10 ^ p.2 := mul_lt_mul_of_pos_right hlt (by positivity)
      _ = 10 ^ (17 + p.2) := (zpow_add₀ (by norm_num) ..).symm
  have hexp := (zpow_lt_zpow_iff_right₀ (by norm_num)).mp hpow
  omega

theorem near_of_scaled_shortest {x y : Double} (hzero : x.magnitude ≠ 0)
    (hfinite : y.isFinite = true)
    (h : (ofNat (x.shortest .even).literal.1).scaleByTen? (x.shortest .even).literal.2 = some y) :
    y.magnitude ≤ x.magnitude + drift (x.shortest .even).literal.2 ∧
      x.magnitude ≤ y.magnitude + drift (x.shortest .even).literal.2 := by
  obtain ⟨hregular, hround⟩ := roundsTo_shortest .even hzero
  obtain ⟨hpos, hlt⟩ := hregular.literal_lt
  obtain ⟨z, hz, hnearest, hclose⟩ := exists_close_of_scaled hpos (hlt.trans (by decide))
    (le_exponent_literal hzero) h
  rw [Digits.cast_literal] at hclose
  have hround' : RoundsTo z y.magnitude := by
    rw [isFinite_iff, hnearest] at hfinite
    rw [hnearest]
    exact roundsTo_nearest hz hfinite
  have hone := one_le_scalingError (x.shortest .even).literal.2
  have hdrift := scalingError_lt_drift (x.shortest .even).literal.2
  exact ⟨le_add_of_le_mul hone hdrift hround hround' hclose.1,
    le_add_of_le_mul hone hdrift hround' hround hclose.2⟩

end SchemaSieve.Double
