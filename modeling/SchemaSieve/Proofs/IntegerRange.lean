import SchemaSieve.Proofs.DecimalRounding

/-!
# Doubles at the ends of the signed range

Between doubles just below `2 ^ 63` lie 1024, just above it 2048.  So a number is
rounded into the range `-2 ^ 63 ≤ n < 2 ^ 63` exactly if it is not below
`-2 ^ 63 - 1024` and below `2 ^ 63 - 512`, and integers are rounded to integers.
-/

namespace SchemaSieve.Double

def edge : Nat := 0x43E0000000000000

theorem value_edge : value edge = 2 ^ 63 := by
  have hcarry := value_carry (k := 1085) (r := 2 ^ 52) (.inr le_rfl) (by decide)
  rw [show edge = 1085 * 0x10000000000000 + 2 ^ 52 by decide, hcarry]
  norm_num

theorem midpoint_edge : midpoint edge = 2 ^ 63 + 1024 := by
  have hplace : place edge = 11 := rfl
  rw [midpoint_eq, value_edge, hplace]
  norm_num

theorem value_below_edge : value (edge - 1) = 2 ^ 63 - 1024 := by
  have hplace : place (edge - 1) = 10 := rfl
  have hsucc := value_succ (edge - 1)
  rw [show edge - 1 + 1 = edge from rfl, value_edge, hplace] at hsucc
  norm_num at hsucc ⊢
  linarith

theorem midpoint_below_edge : midpoint (edge - 1) = 2 ^ 63 - 512 := by
  have hplace : place (edge - 1) = 10 := rfl
  rw [midpoint_eq, value_below_edge, hplace]
  norm_num

variable {p : ℚ}

theorem nearest_le_edge_iff (hp : 0 ≤ p) : nearest p ≤ edge ↔ p ≤ 2 ^ 63 + 1024 := by
  have heven : edge % 2 = 0 := rfl
  rw [nearest_le_iff hp (by decide), Below, midpoint_edge, le_iff_lt_or_eq]
  simp [heven]

theorem nearest_lt_edge_iff (hp : 0 ≤ p) : nearest p < edge ↔ p < 2 ^ 63 - 512 := by
  have hodd : (edge - 1) % 2 = 1 := rfl
  have hpred : nearest p < edge ↔ nearest p ≤ edge - 1 := Nat.lt_iff_le_pred (by decide)
  rw [hpred, nearest_le_iff hp (by decide), Below, midpoint_below_edge]
  simp [hodd]

theorem value_le_edge_iff {m : Nat} : value m ≤ 2 ^ 63 ↔ m ≤ edge := by
  rw [← value_edge]
  exact value_strictMono.le_iff_le

theorem value_lt_edge_iff {m : Nat} : value m < 2 ^ 63 ↔ m < edge := by
  rw [← value_edge]
  exact value_strictMono.lt_iff_lt

theorem exists_value_nearest_natCast (n : Nat) : ∃ k : Nat, value (nearest n) = k := by
  rcases Nat.le_total n (2 ^ 53) with hn | hn
  · exact ⟨n, by rw [← magnitude_ofNat, value_ofNat_of_small hn]⟩
  · have hlow : nearest ((2 ^ 53 : Nat) : ℚ) ≤ nearest n :=
      nearest_mono (by positivity) (by exact_mod_cast hn)
    have hfull : nearest ((2 ^ 53 : Nat) : ℚ) = 0x4340000000000000 := by
      rw [← magnitude_ofNat]
      decide +kernel
    obtain ⟨k, r, -, -, -, -, hvalue⟩ := exists_significand (nearest n)
    rw [hfull] at hlow
    have hplace := place_mono hlow
    have hplace' : place 0x4340000000000000 = 1 := by decide
    rw [hvalue]
    generalize place (nearest n) = e at *
    obtain ⟨j, rfl⟩ := Int.eq_ofNat_of_zero_le (show 0 ≤ e by omega)
    exact ⟨r * 2 ^ j, by push_cast; rw [zpow_natCast]⟩

section

variable {q : ℚ} {x z : Double}

theorem isFinite_of_abs_le (h : |x.toRat| ≤ 2 ^ 63) : x.isFinite = true := by
  rw [abs_toRat, value_le_edge_iff] at h
  exact (isFinite_iff x).mpr (Nat.lt_of_le_of_lt h (by decide))

/-- The midpoint below `2 ^ 63` is the first number that is rounded up to it. -/
theorem IsRounded.toRat_lt_iff (h : IsRounded q z) : z.toRat < 2 ^ 63 ↔ q < 2 ^ 63 - 512 := by
  rcases lt_or_ge q 0 with hq | hq
  · have hvalue := value_nonneg (nearest (-q))
    rw [h.toRat_of_neg hq]
    exact ⟨fun _ => hq.trans (by norm_num), fun _ => by linarith⟩
  · rw [h.toRat_of_nonneg hq, value_lt_edge_iff, nearest_lt_edge_iff hq]

theorem IsRounded.le_toRat_iff (h : IsRounded q z) : -2 ^ 63 ≤ z.toRat ↔ -2 ^ 63 - 1024 ≤ q := by
  rcases lt_or_ge q 0 with hq | hq
  · have hiff := nearest_le_edge_iff (neg_nonneg.mpr hq.le)
    rw [h.toRat_of_neg hq, neg_le_neg_iff, value_le_edge_iff, hiff]
    constructor <;> (intro; linarith)
  · have hvalue := value_nonneg (nearest q)
    rw [h.toRat_of_nonneg hq]
    exact ⟨fun _ => le_trans (by norm_num) hq, fun _ => by linarith⟩

theorem IsRounded.toRat_le (h : IsRounded q z) (hq : q ≤ -2 ^ 63) : z.toRat ≤ -2 ^ 63 := by
  have hneg : q < 0 := lt_of_le_of_lt hq (by norm_num)
  have hedge : ¬ value (nearest (-q)) < 2 ^ 63 := by
    rw [value_lt_edge_iff, nearest_lt_edge_iff (by linarith)]
    linarith
  rw [h.toRat_of_neg hneg]
  linarith

theorem IsRounded.toRat_intCast {n : ℤ} (h : IsRounded n z) :
    z.toRat = n.sign * value (nearest n.natAbs) := by
  have habs : |(n : ℚ)| = n.natAbs := by rw [Nat.cast_natAbs, Int.cast_abs]
  rcases lt_trichotomy n 0 with hn | rfl | hn
  · have hn' : (n : ℚ) < 0 := by exact_mod_cast hn
    rw [h.toRat_of_neg hn', Int.sign_eq_neg_one_of_neg hn, ← abs_of_neg hn', habs]
    simp
  · rw [toRat_eq_zero_iff.mpr (by rw [h.magnitude]; simp [nearest_of_tiny])]
    simp
  · have hn' : (0 : ℚ) < n := by exact_mod_cast hn
    rw [h.toRat_of_nonneg hn'.le, Int.sign_eq_one_of_pos hn, ← habs, abs_of_pos hn']
    simp

theorem IsRounded.exists_int {n : ℤ} (h : IsRounded n z) : ∃ k : ℤ, z.toRat = k := by
  obtain ⟨k, hk⟩ := exists_value_nearest_natCast n.natAbs
  exact ⟨n.sign * k, by rw [h.toRat_intCast, hk]; push_cast; rfl⟩

theorem IsRounded.toRat_of_small {n : ℤ} (h : IsRounded n z) (hn : n.natAbs ≤ 2 ^ 53) :
    z.toRat = n := by
  rw [h.toRat_intCast, ← magnitude_ofNat, value_ofNat_of_small hn]
  rw [← Int.cast_natCast, ← Int.cast_mul, Int.sign_mul_natAbs]

end

end SchemaSieve.Double
