import Mathlib.Algebra.Order.Field.Power
import Mathlib.Algebra.Order.Field.Rat
import Mathlib.Tactic.FieldSimp
import Mathlib.Tactic.Linarith
import Mathlib.Tactic.NormNum
import Mathlib.Tactic.Positivity
import Mathlib.Tactic.Ring
import SchemaSieve.Double.Rounding

/-!
# Nearest doubles

Magnitudes are numbered in the order of their values, so rounding is a matter of the
midpoints between neighbours.  A quotient rounds to a magnitude or below exactly if it
lies below the midpoint above that magnitude, or on it where the magnitude is even.
Everything else about rounding follows from this: it keeps the order, it leaves values
of doubles alone, and whatever lies between the two midpoints around a double rounds to
it.
-/

namespace SchemaSieve.Double

/-! ## Values of magnitudes -/

/-- The exponent of the last place of a magnitude. -/
def place (m : Nat) : ℤ := (max (m / 0x10000000000000) 1 : Nat) - 1075

def value (m : Nat) : ℚ :=
  ((if m / 0x10000000000000 = 0 then m % 0x10000000000000
    else 0x10000000000000 + m % 0x10000000000000 : Nat) : ℚ) * 2 ^ place m

def midpoint (m : Nat) : ℚ := (value m + value (m + 1)) / 2

theorem value_carry {k r : Nat} (hplace : k = 0 ∨ 2 ^ 52 ≤ r) (hr : r ≤ 2 ^ 53) :
    value (k * 0x10000000000000 + r) = r * 2 ^ ((k : ℤ) - 1074) := by
  rcases Nat.lt_or_ge r (2 ^ 52) with hlow | hhigh
  · have hk : k = 0 := by omega
    have hdiv : (k * 0x10000000000000 + r) / 0x10000000000000 = 0 := by omega
    have hmod : (k * 0x10000000000000 + r) % 0x10000000000000 = r := by omega
    have hexp : ((max 0 1 : Nat) : ℤ) - 1075 = (k : ℤ) - 1074 := by omega
    simp only [value, place, hdiv, hmod, hexp, if_true]
  · rcases Nat.lt_or_eq_of_le hr with hlt | rfl
    · have hdiv : (k * 0x10000000000000 + r) / 0x10000000000000 = k + 1 := by omega
      have hmod : (k * 0x10000000000000 + r) % 0x10000000000000 = r - 0x10000000000000 := by omega
      have hsum : 0x10000000000000 + (r - 0x10000000000000) = r := by omega
      have hexp : ((k + 1 : Nat) : ℤ) - 1075 = (k : ℤ) - 1074 := by omega
      simp only [value, place, hdiv, hmod, if_neg (Nat.succ_ne_zero k), hsum,
        Nat.max_eq_left (Nat.le_add_left 1 k), hexp]
    · -- the significand is full, so the last place moves up
      have hdiv : (k * 0x10000000000000 + 2 ^ 53) / 0x10000000000000 = k + 2 := by omega
      have hmod : (k * 0x10000000000000 + 2 ^ 53) % 0x10000000000000 = 0 := by omega
      have hmax : max (k + 2) 1 = k + 2 := by omega
      have hexp : ((k + 2 : Nat) : ℤ) - 1075 = (k : ℤ) - 1074 + 1 := by omega
      simp only [value, place, hdiv, hmod, hmax, hexp]
      rw [zpow_add_one₀ (by norm_num)]
      norm_num
      ring

theorem exists_significand (m : Nat) :
    ∃ k r, m = k * 0x10000000000000 + r ∧ (k = 0 ∨ 2 ^ 52 ≤ r) ∧ r < 2 ^ 53 ∧
      place m = (k : ℤ) - 1074 ∧ value m = r * 2 ^ place m := by
  obtain ⟨k, r, hm, hplace, hr, hexp⟩ : ∃ k r, m = k * 0x10000000000000 + r ∧
      (k = 0 ∨ 2 ^ 52 ≤ r) ∧ r < 2 ^ 53 ∧ place m = (k : ℤ) - 1074 := by
    rcases Nat.lt_or_ge m 0x10000000000000 with hlow | hhigh
    · refine ⟨0, m, by omega, .inl rfl, by omega, ?_⟩
      simp [place, Nat.div_eq_of_lt hlow]
    · refine ⟨m / 0x10000000000000 - 1, 0x10000000000000 + m % 0x10000000000000, by omega,
        .inr (by omega), by omega, ?_⟩
      simp only [place]
      omega
  refine ⟨k, r, hm, hplace, hr, hexp, ?_⟩
  rw [hexp, hm, value_carry hplace hr.le]

theorem value_succ (m : Nat) : value (m + 1) = value m + 2 ^ place m := by
  obtain ⟨k, r, hm, hplace, hr, hexp, hvalue⟩ := exists_significand m
  have hnext : k = 0 ∨ 2 ^ 52 ≤ r + 1 := by omega
  rw [hvalue, hexp, hm, Nat.add_assoc, value_carry hnext hr]
  push_cast
  ring

theorem value_strictMono : StrictMono value := by
  apply strictMono_nat_of_lt_succ
  intro m
  have hgap : (0 : ℚ) < 2 ^ place m := by positivity
  rw [value_succ]
  linarith

theorem value_zero : value 0 = 0 := by simp [value]

theorem value_nonneg (m : Nat) : 0 ≤ value m := by
  rw [← value_zero]
  exact value_strictMono.monotone (Nat.zero_le m)

theorem midpoint_eq (m : Nat) : midpoint m = value m + 2 ^ place m / 2 := by
  rw [midpoint, value_succ]
  ring

theorem value_lt_midpoint (m : Nat) : value m < midpoint m := by
  have hgap : (0 : ℚ) < 2 ^ place m := by positivity
  rw [midpoint_eq]
  linarith

theorem midpoint_lt_value {m n : Nat} (h : m < n) : midpoint m < value n := by
  have hgap : (0 : ℚ) < 2 ^ place m := by positivity
  have hle : value (m + 1) ≤ value n := value_strictMono.monotone h
  rw [value_succ] at hle
  rw [midpoint_eq]
  linarith

theorem midpoint_strictMono : StrictMono midpoint := by
  intro m n h
  exact (midpoint_lt_value h).trans (value_lt_midpoint n)

/-! ## The steps of rounding -/

theorem cast_scaled (n d : Nat) (p : ℤ) :
    ((n <<< (-p).toNat : Nat) : ℚ) / ((d <<< p.toNat : Nat) : ℚ) = n / d / 2 ^ p := by
  rw [Nat.shiftLeft_eq, Nat.shiftLeft_eq]
  push_cast
  rcases le_total 0 p with hp | hp
  · obtain ⟨k, rfl⟩ := Int.eq_ofNat_of_zero_le hp
    simp [div_div]
  · obtain ⟨k, hk⟩ := Int.eq_ofNat_of_zero_le (Int.neg_nonneg.mpr hp)
    have hpk : p = -(k : ℤ) := by omega
    subst hpk
    simp [div_eq_mul_inv]
    ring

theorem roundHalfEven_bounds (n : Nat) {d : Nat} (hd : 0 < d) :
    2 * (roundHalfEven n d * d) ≤ 2 * n + d ∧ 2 * n ≤ 2 * (roundHalfEven n d * d) + d ∧
      (2 * n = 2 * (roundHalfEven n d * d) + d ∨ 2 * (roundHalfEven n d * d) = 2 * n + d →
        roundHalfEven n d % 2 = 0) := by
  have hsplit : d * (n / d) + n % d = n := Nat.div_add_mod n d
  have hrest : n % d < d := Nat.mod_lt n hd
  have hcomm : n / d * d = d * (n / d) := Nat.mul_comm ..
  have hsucc : (n / d + 1) * d = d * (n / d) + d := by ring
  simp only [roundHalfEven]
  split
  · omega
  · split
    · omega
    · split <;> omega

theorem roundHalfEven_near (n : Nat) {d : Nat} (hd : 0 < d) :
    |(n / d : ℚ) - roundHalfEven n d| ≤ 1 / 2 ∧
      (|(n / d : ℚ) - roundHalfEven n d| = 1 / 2 → roundHalfEven n d % 2 = 0) := by
  obtain ⟨hlow, hhigh, htie⟩ := roundHalfEven_bounds n hd
  generalize roundHalfEven n d = r at *
  have hd' : (0 : ℚ) < d := by exact_mod_cast hd
  have hdiff : (n / d : ℚ) - r = (n - r * d) / d := by field_simp
  have hlow' : 2 * ((r : ℚ) * d) ≤ 2 * n + d := by exact_mod_cast hlow
  have hhigh' : 2 * (n : ℚ) ≤ 2 * (r * d) + d := by exact_mod_cast hhigh
  rw [hdiff, abs_div, abs_of_pos hd', div_le_iff₀ hd', div_eq_iff hd'.ne']
  refine ⟨abs_le.mpr ⟨by linarith, by linarith⟩, fun h => htie ?_⟩
  rcases eq_or_eq_neg_of_abs_eq h with h | h
  · left
    have hcast : 2 * (n : ℚ) = 2 * (r * d) + d := by linarith
    exact_mod_cast hcast
  · right
    have hcast : 2 * ((r : ℚ) * d) = 2 * n + d := by linarith
    exact_mod_cast hcast

theorem floorLog2_bounds {n d : Nat} (hn : 0 < n) (hd : 0 < d) :
    (2 : ℚ) ^ floorLog2 n d ≤ n / d ∧ (n / d : ℚ) < 2 ^ (floorLog2 n d + 1) := by
  have hd' : (0 : ℚ) < d := by exact_mod_cast hd
  have hnlow : (2 : ℚ) ^ n.log2 ≤ n := by exact_mod_cast Nat.log2_self_le hn.ne'
  have hnhigh : (n : ℚ) < 2 ^ (n.log2 + 1) := by exact_mod_cast Nat.lt_log2_self
  have hdlow : (2 : ℚ) ^ d.log2 ≤ d := by exact_mod_cast Nat.log2_self_le hd.ne'
  have hdhigh : (d : ℚ) < 2 ^ (d.log2 + 1) := by exact_mod_cast Nat.lt_log2_self
  have hk : ∀ k : ℤ, n <<< (-k).toNat < d <<< k.toNat ↔ (n / d : ℚ) < 2 ^ k := by
    intro k
    have hunit : (0 : ℚ) < (d <<< k.toNat : Nat) := by
      rw [Nat.shiftLeft_eq]
      positivity
    have hpow : (0 : ℚ) < 2 ^ k := by positivity
    rw [← div_lt_one hpow, ← cast_scaled, div_lt_one hunit]
    exact Nat.cast_lt.symm
  have habove : (n / d : ℚ) < 2 ^ ((n.log2 : ℤ) - d.log2 + 1) := by
    rw [div_lt_iff₀ hd', show (n.log2 : ℤ) - d.log2 + 1 = (n.log2 + 1 : Nat) - (d.log2 : Nat) by
      push_cast; ring, zpow_sub₀ (by norm_num), zpow_natCast, zpow_natCast]
    calc (n : ℚ) < 2 ^ (n.log2 + 1) := hnhigh
      _ = 2 ^ (n.log2 + 1) / 2 ^ d.log2 * 2 ^ d.log2 := by field_simp
      _ ≤ 2 ^ (n.log2 + 1) / 2 ^ d.log2 * d := by gcongr
  have hbelow : (2 : ℚ) ^ ((n.log2 : ℤ) - d.log2 - 1) ≤ n / d := by
    rw [le_div_iff₀ hd', show (n.log2 : ℤ) - d.log2 - 1 = (n.log2 : Nat) - (d.log2 + 1 : Nat) by
      push_cast; ring, zpow_sub₀ (by norm_num), zpow_natCast, zpow_natCast]
    calc (2 : ℚ) ^ n.log2 / 2 ^ (d.log2 + 1) * d
        ≤ 2 ^ n.log2 / 2 ^ (d.log2 + 1) * 2 ^ (d.log2 + 1) := by gcongr
      _ = 2 ^ n.log2 := by field_simp
      _ ≤ n := hnlow
  simp only [floorLog2]
  split
  · rename_i hlt
    exact ⟨hbelow, by simpa using (hk _).mp hlt⟩
  · rename_i hge
    exact ⟨not_lt.mp fun h => hge ((hk _).mpr h), habove⟩

/-! ## Rounding -/

/-- A number that rounds to a magnitude or to a smaller one: it lies below the midpoint
above the magnitude, or on it if the magnitude is even. -/
def Below (q : ℚ) (m : Nat) : Prop := q < midpoint m ∨ q = midpoint m ∧ m % 2 = 0

theorem Below.le {q : ℚ} {m : Nat} (h : Below q m) : q ≤ midpoint m := by
  rcases h with h | ⟨h, -⟩
  · exact h.le
  · exact h.le

theorem Below.mono {p q : ℚ} {m n : Nat} (h : Below q m) (hpq : p ≤ q) (hmn : m ≤ n) :
    Below p n := by
  rcases Nat.lt_or_eq_of_le hmn with hlt | rfl
  · exact .inl (lt_of_le_of_lt (hpq.trans h.le) (midpoint_strictMono hlt))
  · rcases lt_or_eq_of_le hpq with hlt | rfl
    · exact .inl (hlt.trans_le h.le)
    · exact h

/-- A number within half a last place of `r · 2 ^ (k - 1074)`, and as far only if `r` is even. -/
structure Near (q : ℚ) (k r : Nat) : Prop where
  full : r ≤ 2 ^ 53
  low : k = 0 ∨ 2 ^ 52 ≤ r ∧ 2 ^ 52 * 2 ^ ((k : ℤ) - 1074) ≤ q
  near : |q - r * 2 ^ ((k : ℤ) - 1074)| ≤ 2 ^ ((k : ℤ) - 1074) / 2
  tie : |q - r * 2 ^ ((k : ℤ) - 1074)| = 2 ^ ((k : ℤ) - 1074) / 2 → r % 2 = 0

namespace Near

variable {q : ℚ} {k r m : Nat}

theorem value_eq (h : Near q k r) :
    value (k * 0x10000000000000 + r) = r * 2 ^ ((k : ℤ) - 1074) :=
  value_carry (h.low.imp_right And.left) h.full

theorem below (h : Near q k r) : Below q (k * 0x10000000000000 + r) := by
  have hlow : k = 0 ∨ 2 ^ 52 ≤ r := h.low.imp_right And.left
  have hgap : (2 : ℚ) ^ ((k : ℤ) - 1074) ≤ 2 ^ place (k * 0x10000000000000 + r) := by
    apply zpow_le_zpow_right₀ (by norm_num)
    simp only [place]
    omega
  rw [Below, midpoint_eq, h.value_eq]
  rcases lt_or_eq_of_le (abs_le.mp h.near).2 with hlt | heq
  · left
    linarith
  · rcases lt_or_eq_of_le hgap with hfine | hfine
    · left
      linarith
    · right
      have heven := h.tie (by rw [heq, abs_of_pos (by positivity)])
      exact ⟨by linarith, by omega⟩

theorem midpoint_pred (h : Near q k r) (hm : m + 1 = k * 0x10000000000000 + r) :
    midpoint m = r * 2 ^ ((k : ℤ) - 1074) - 2 ^ place m / 2 := by
  rw [midpoint_eq, ← h.value_eq, ← hm, value_succ]
  ring

theorem not_below_of_place (h : Near q k r) (hm : m + 1 = k * 0x10000000000000 + r)
    (hplace : place m = (k : ℤ) - 1074) : ¬ Below q m := by
  have hmid := h.midpoint_pred hm
  have hnear := (abs_le.mp h.near).1
  rw [hplace] at hmid
  rintro (hlow | ⟨heq, heven⟩)
  · linarith
  · have hdist : q - r * 2 ^ ((k : ℤ) - 1074) = -(2 ^ ((k : ℤ) - 1074) / 2) := by linarith
    have heven' := h.tie (by rw [hdist, abs_neg, abs_of_pos (by positivity)])
    omega

/-- Below a power of two the last place is finer, but the number is not below it. -/
theorem not_below_of_finer (h : Near q k r) (hm : m + 1 = k * 0x10000000000000 + r)
    (hplace : place m ≠ (k : ℤ) - 1074) : ¬ Below q m := by
  have hgap : (0 : ℚ) < 2 ^ place m := by positivity
  have hfull := h.full
  have hk : k ≠ 0 := by
    rintro rfl
    simp only [place] at hplace
    omega
  obtain ⟨hr, hge⟩ := h.low.resolve_left hk
  have hpower : r = 2 ^ 52 := by
    simp only [place] at hplace
    omega
  intro hbelow
  have hle := hbelow.le
  rw [h.midpoint_pred hm, hpower] at hle
  push_cast at hle
  linarith

theorem below_iff (h : Near q k r) (l : Nat) : Below q l ↔ k * 0x10000000000000 + r ≤ l := by
  constructor
  · intro hbelow
    by_contra hlt
    obtain ⟨m, hm⟩ : ∃ m, m + 1 = k * 0x10000000000000 + r :=
      ⟨k * 0x10000000000000 + r - 1, by omega⟩
    have hbelow' : Below q m := hbelow.mono le_rfl (by omega)
    by_cases hplace : place m = (k : ℤ) - 1074
    · exact h.not_below_of_place hm hplace hbelow'
    · exact h.not_below_of_finer hm hplace hbelow'
  · exact h.below.mono le_rfl

end Near

theorem near_of_scaled {q : ℚ} {k r : Nat} (hhigh : q / 2 ^ ((k : ℤ) - 1074) < 2 ^ 53)
    (hlow : k = 0 ∨ 2 ^ 52 ≤ q / 2 ^ ((k : ℤ) - 1074))
    (hnear : |q / 2 ^ ((k : ℤ) - 1074) - r| ≤ 1 / 2)
    (htie : |q / 2 ^ ((k : ℤ) - 1074) - r| = 1 / 2 → r % 2 = 0) : Near q k r := by
  have hu : (0 : ℚ) < 2 ^ ((k : ℤ) - 1074) := by positivity
  obtain ⟨hnear', hnear''⟩ := abs_le.mp hnear
  have hdist : |q - r * 2 ^ ((k : ℤ) - 1074)| =
      |q / 2 ^ ((k : ℤ) - 1074) - r| * 2 ^ ((k : ℤ) - 1074) := by
    rw [← abs_of_pos hu, ← abs_mul, abs_of_pos hu]
    congr 1
    field_simp
  have hhalf : (2 : ℚ) ^ ((k : ℤ) - 1074) / 2 = 1 / 2 * 2 ^ ((k : ℤ) - 1074) := by ring
  constructor
  · have hlt : (r : ℚ) < 2 ^ 53 + 1 := by linarith
    exact_mod_cast Nat.lt_succ_iff.mp (by exact_mod_cast hlt)
  · refine hlow.imp_right fun h => ⟨?_, (le_div_iff₀ hu).mp h⟩
    have hlt : (2 : ℚ) ^ 52 < r + 1 := by linarith
    exact_mod_cast Nat.lt_succ_iff.mp (by exact_mod_cast hlt)
  · rw [hdist, hhalf]
    exact mul_le_mul_of_nonneg_right hnear hu.le
  · rw [hdist, hhalf]
    exact fun h => htie (mul_right_cancel₀ hu.ne' h)

theorem scaled_bounds {n d k : Nat} (hn : 0 < n) (hd : 0 < d)
    (hk : max (floorLog2 n d - 52) (-1074) = (k : ℤ) - 1074) :
    (n / d : ℚ) / 2 ^ ((k : ℤ) - 1074) < 2 ^ 53 ∧
      (k = 0 ∨ 2 ^ 52 ≤ (n / d : ℚ) / 2 ^ ((k : ℤ) - 1074)) := by
  have hu : (0 : ℚ) < 2 ^ ((k : ℤ) - 1074) := by positivity
  obtain ⟨hlog, hlog'⟩ := floorLog2_bounds hn hd
  constructor
  · rw [div_lt_iff₀ hu]
    calc (n / d : ℚ) < 2 ^ (floorLog2 n d + 1) := hlog'
      _ ≤ 2 ^ (53 + ((k : ℤ) - 1074)) := zpow_le_zpow_right₀ (by norm_num) (by omega)
      _ = 2 ^ 53 * 2 ^ ((k : ℤ) - 1074) := zpow_add₀ (by norm_num) ..
  · rcases Nat.eq_zero_or_pos k with h | h
    · exact .inl h
    · right
      rw [le_div_iff₀ hu]
      calc (2 : ℚ) ^ 52 * 2 ^ ((k : ℤ) - 1074) = 2 ^ (52 + ((k : ℤ) - 1074)) :=
            (zpow_add₀ (by norm_num) ..).symm
        _ ≤ 2 ^ floorLog2 n d := zpow_le_zpow_right₀ (by norm_num) (by omega)
        _ ≤ n / d := hlog

theorem roundRatio_le_iff {n d m : Nat} (hd : 0 < d) (hm : m < infiniteMagnitude) :
    roundRatio n d ≤ m ↔ Below (n / d) m := by
  rcases Nat.eq_zero_or_pos n with rfl | hn
  · have hpos : (0 : ℚ) < midpoint m := (value_nonneg m).trans_lt (value_lt_midpoint m)
    simp [roundRatio, Below, hpos]
  obtain ⟨k, hk⟩ : ∃ k : Nat, max (floorLog2 n d - 52) (-1074) = (k : ℤ) - 1074 :=
    ⟨(max (floorLog2 n d - 52) (-1074) + 1074).toNat, by omega⟩
  have hunit : 0 < d <<< ((k : ℤ) - 1074).toNat := by
    rw [Nat.shiftLeft_eq]
    positivity
  obtain ⟨hhigh, hlow⟩ := scaled_bounds hn hd hk
  obtain ⟨hnear, htie⟩ := roundHalfEven_near (n <<< (-((k : ℤ) - 1074)).toNat) hunit
  rw [cast_scaled] at hnear htie
  rw [(near_of_scaled hhigh hlow hnear htie).below_iff, roundRatio, if_neg hn.ne', hk]
  simp only [sub_add_cancel, Int.toNat_natCast]
  omega

theorem roundRatio_le_infinite (n d : Nat) : roundRatio n d ≤ infiniteMagnitude := by
  simp only [roundRatio]
  split
  · exact Nat.zero_le _
  · exact Nat.min_le_right ..

def nearest (q : ℚ) : Nat := roundRatio q.num.natAbs q.den

theorem nearest_le_iff {q : ℚ} {m : Nat} (hq : 0 ≤ q) (hm : m < infiniteMagnitude) :
    nearest q ≤ m ↔ Below q m := by
  have hnum : (q.num.natAbs : ℤ) = q.num := Int.natAbs_of_nonneg (Rat.num_nonneg.mpr hq)
  have hcast : (q.num.natAbs / q.den : ℚ) = q := by
    rw [← Int.cast_natCast, hnum, Rat.num_div_den]
  rw [nearest, roundRatio_le_iff q.den_pos hm, hcast]

theorem nearest_le_infinite (q : ℚ) : nearest q ≤ infiniteMagnitude := roundRatio_le_infinite ..

theorem nearest_mono {p q : ℚ} (hp : 0 ≤ p) (h : p ≤ q) : nearest p ≤ nearest q := by
  rcases Nat.lt_or_ge (nearest q) infiniteMagnitude with hfinite | hinfinite
  · have hbelow := (nearest_le_iff (hp.trans h) hfinite).mp le_rfl
    exact (nearest_le_iff hp hfinite).mpr (hbelow.mono h le_rfl)
  · exact (nearest_le_infinite p).trans hinfinite

theorem roundRatio_eq_nearest (n : Nat) {d : Nat} (hd : 0 < d) :
    roundRatio n d = nearest (n / d) := by
  have hiff : ∀ m < infiniteMagnitude, roundRatio n d ≤ m ↔ nearest (n / d) ≤ m := by
    intro m hm
    rw [roundRatio_le_iff hd hm, nearest_le_iff (by positivity) hm]
  have hle := roundRatio_le_infinite n d
  have hle' := nearest_le_infinite (n / d)
  apply Nat.le_antisymm
  · rcases Nat.lt_or_eq_of_le hle' with hlt | heq
    · exact (hiff _ hlt).mpr le_rfl
    · omega
  · rcases Nat.lt_or_eq_of_le hle with hlt | heq
    · exact (hiff _ hlt).mp le_rfl
    · omega

/-- A number whose nearest magnitude is `m`. -/
def RoundsTo (q : ℚ) (m : Nat) : Prop := Below q m ∧ ∀ l, l + 1 = m → ¬ Below q l

theorem roundsTo_value (m : Nat) : RoundsTo (value m) m := by
  refine ⟨.inl (value_lt_midpoint m), fun l hl hbelow => ?_⟩
  have hlt : midpoint l < value m := midpoint_lt_value (by omega)
  exact absurd hbelow.le (not_le.mpr hlt)

theorem nearest_eq_of_roundsTo {q : ℚ} {m : Nat} (hq : 0 ≤ q) (hm : m < infiniteMagnitude)
    (h : RoundsTo q m) : nearest q = m := by
  apply Nat.le_antisymm ((nearest_le_iff hq hm).mpr h.1)
  by_contra hlt
  obtain ⟨l, rfl⟩ : ∃ l, m = l + 1 := ⟨m - 1, by omega⟩
  have hl : l < infiniteMagnitude := by omega
  exact h.2 l rfl ((nearest_le_iff hq hl).mp (by omega))

theorem roundsTo_nearest {q : ℚ} (hq : 0 ≤ q) (h : nearest q < infiniteMagnitude) :
    RoundsTo q (nearest q) := by
  refine ⟨(nearest_le_iff hq h).mp le_rfl, fun l hl hbelow => ?_⟩
  have hle := (nearest_le_iff hq (by omega)).mpr hbelow
  omega

theorem nearest_value {m : Nat} (hm : m < infiniteMagnitude) : nearest (value m) = m :=
  nearest_eq_of_roundsTo (value_nonneg m) hm (roundsTo_value m)

theorem RoundsTo.midpoint_le {q : ℚ} {l m : Nat} (h : RoundsTo q m) (hl : l < m) :
    midpoint l ≤ q := by
  have hlast := h.2 (m - 1) (by omega)
  rw [Below, not_or, not_lt] at hlast
  exact (midpoint_strictMono.monotone (by omega)).trans hlast.1

theorem roundsTo_succ_iff {q : ℚ} {l : Nat} :
    RoundsTo q (l + 1) ↔
      if (l + 1) % 2 = 0 then midpoint l ≤ q ∧ q ≤ midpoint (l + 1)
      else midpoint l < q ∧ q < midpoint (l + 1) := by
  have hlast : (∀ k, k + 1 = l + 1 → ¬ Below q k) ↔ ¬ Below q l := by
    constructor
    · exact fun h => h l rfl
    · rintro h k hk
      cases hk
      exact h
  rw [RoundsTo, hlast, Below, Below]
  split
  · rename_i heven
    have hodd : l % 2 ≠ 0 := by omega
    simp only [heven, hodd, and_true, and_false, or_false, not_lt, ← le_iff_lt_or_eq]
    exact and_comm
  · rename_i hodd
    have heven : l % 2 = 0 := by omega
    simp only [heven, hodd, and_true, and_false, or_false, ← le_iff_lt_or_eq, not_le]
    exact and_comm

theorem roundsTo_of_between {q : ℚ} {l : Nat} (hlow : midpoint l < q)
    (hhigh : q < midpoint (l + 1)) : RoundsTo q (l + 1) := by
  rw [roundsTo_succ_iff]
  split
  · exact ⟨hlow.le, hhigh.le⟩
  · exact ⟨hlow, hhigh⟩

/-! ## Finite doubles as quotients -/

theorem ratio_pos (x : Double) : 0 < x.ratio.2 := by
  simp only [ratio, scaled, Nat.shiftLeft_eq]
  positivity

theorem cast_ratio (x : Double) : (x.ratio.1 / x.ratio.2 : ℚ) = value x.magnitude := by
  have hscaled := cast_scaled x.significand 1 (-x.exponent)
  rw [neg_neg, zpow_neg, Nat.cast_one, div_one, div_inv_eq_mul] at hscaled
  exact hscaled

end SchemaSieve.Double
