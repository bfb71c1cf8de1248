import SchemaSieve.Proofs.Nearest

/-!
# Rounded integers are finite

Every integer of sixty-four bits rounds to a finite double, since rounding keeps the
order and the first integer past them rounds to a finite one.
-/

namespace SchemaSieve.Double

/-! ## Words -/

theorem magnitude_ofMagnitude {negative : Bool} {m : Nat} (h : m < 2 ^ 63) :
    (ofMagnitude negative m).magnitude = m := by
  simp only [ofMagnitude, magnitude, UInt64.toNat_ofNat']
  split <;> omega

theorem isFinite_ofMagnitude {negative : Bool} {m : Nat} (h : m < infiniteMagnitude) :
    (ofMagnitude negative m).isFinite = true := by
  have hword : m < 2 ^ 63 := Nat.lt_trans h (by decide)
  rw [isFinite, magnitude_ofMagnitude hword]
  exact decide_eq_true h

theorem negative_ofMagnitude {negative : Bool} {m : Nat} (h : m < 2 ^ 63) :
    (ofMagnitude negative m).negative = negative := by
  simp only [ofMagnitude, Double.negative, UInt64.toNat_ofNat']
  cases negative with
  | false => simpa using Nat.lt_of_le_of_lt (Nat.mod_le ..) h
  | true => simp only [if_true, decide_eq_true_eq]; omega

theorem eq_ofMagnitude (x : Double) : x = ofMagnitude x.negative x.magnitude := by
  have hlt := x.bits.toNat_lt
  have hword : x.bits = .ofNat x.bits.toNat := by simp
  have hsum : (if x.negative then 0x8000000000000000 + x.magnitude else x.magnitude) =
      x.bits.toNat := by
    simp only [negative, magnitude, decide_eq_true_eq]
    split <;> omega
  rw [ofMagnitude, hsum, ← hword]

/-! ## Operations -/

theorem nearest_lt_word (q : ℚ) : nearest q < 2 ^ 63 :=
  Nat.lt_of_le_of_lt (nearest_le_infinite q) (by decide)

theorem magnitude_ofRatio (negative : Bool) (n : Nat) {d : Nat} (hd : 0 < d) :
    (ofRatio negative n d).magnitude = nearest (n / d) := by
  rw [ofRatio, roundRatio_eq_nearest n hd]
  exact magnitude_ofMagnitude (nearest_lt_word _)

theorem negative_ofRatio (negative : Bool) (n : Nat) {d : Nat} (hd : 0 < d) :
    (ofRatio negative n d).negative = negative := by
  rw [ofRatio, roundRatio_eq_nearest n hd]
  exact negative_ofMagnitude (nearest_lt_word _)

theorem magnitude_ofNat (n : Nat) : (ofNat n).magnitude = nearest n := by
  rw [ofNat, magnitude_ofRatio false n Nat.one_pos, Nat.cast_one, div_one]

theorem negative_ofNat (n : Nat) : (ofNat n).negative = false :=
  negative_ofRatio false n Nat.one_pos

theorem negative_mul (x y : Double) : (x.mul y).negative = (x.negative != y.negative) :=
  negative_ofRatio _ _ (Nat.mul_pos (ratio_pos x) (ratio_pos y))

theorem magnitude_mul (x y : Double) :
    (x.mul y).magnitude = nearest (value x.magnitude * value y.magnitude) := by
  rw [mul, magnitude_ofRatio _ _ (Nat.mul_pos (ratio_pos x) (ratio_pos y)), ← cast_ratio,
    ← cast_ratio]
  push_cast
  rw [div_mul_div_comm]

theorem numerator_pos {x : Double} (h : x.magnitude ≠ 0) : 0 < x.ratio.1 := by
  have hvalue := cast_ratio x
  by_contra hn
  have hpos : 0 < value x.magnitude := by
    rw [← value_zero]
    exact value_strictMono (Nat.pos_of_ne_zero h)
  rw [Nat.eq_zero_of_not_pos hn, Nat.cast_zero, zero_div] at hvalue
  linarith

theorem negative_div (x : Double) {y : Double} (hy : y.magnitude ≠ 0) :
    (x.div y).negative = (x.negative != y.negative) :=
  negative_ofRatio _ _ (Nat.mul_pos (ratio_pos x) (numerator_pos hy))

theorem magnitude_div (x : Double) {y : Double} (hy : y.magnitude ≠ 0) :
    (x.div y).magnitude = nearest (value x.magnitude / value y.magnitude) := by
  rw [div, magnitude_ofRatio _ _ (Nat.mul_pos (ratio_pos x) (numerator_pos hy)), ← cast_ratio,
    ← cast_ratio]
  push_cast
  rw [div_div_div_eq]

theorem isFinite_iff (x : Double) : x.isFinite = true ↔ x.magnitude < infiniteMagnitude := by
  rw [isFinite, decide_eq_true_iff]

theorem isNaN_of_isFinite {x : Double} (hfinite : x.isFinite = true) : x.isNaN = false := by
  rw [isFinite_iff] at hfinite
  exact decide_eq_false (by omega)

/-! ## Integers -/

theorem roundRatio_one_lt {n : Nat} (h : n < 2 ^ 64) : roundRatio n 1 < infiniteMagnitude := by
  have hle : nearest n ≤ nearest ((2 ^ 64 : Nat) : ℚ) :=
    nearest_mono (Nat.cast_nonneg n) (by exact_mod_cast h.le)
  have hlast : (ofNat (2 ^ 64)).magnitude < infiniteMagnitude := by decide +kernel
  rw [magnitude_ofNat] at hlast
  rw [roundRatio_eq_nearest n Nat.one_pos, Nat.cast_one, div_one]
  omega

theorem isFinite_ofRatio_one {negative : Bool} {n : Nat} (h : n < 2 ^ 64) :
    (ofRatio negative n 1).isFinite = true :=
  isFinite_ofMagnitude (roundRatio_one_lt h)

theorem isFinite_ofUInt64 (u : UInt64) : (ofNat u.toNat).isFinite = true :=
  isFinite_ofRatio_one u.toNat_lt

theorem isFinite_ofInt64 (i : Int64) : (ofInt i.toInt).isFinite = true := by
  have hlow := i.le_toInt
  have hhigh := i.toInt_lt
  apply isFinite_ofRatio_one
  omega

end SchemaSieve.Double
