import SchemaSieve.Double.Shortest
import SchemaSieve.Proofs.Rounding
import SchemaSieve.Proofs.Numerals

/-!
# Shortest digits round back

The search for the digits of a double ends with digits that lie between the midpoints
around the double, so they round to it.  On the grid of seventeen digits there always
are such: its spacing is below the distance of the two midpoints.
-/

namespace SchemaSieve.Double

/-! ## The interval of a double -/

theorem significand_mod_two (x : Double) : x.significand % 2 = x.magnitude % 2 := by
  unfold significand
  split <;> simp only [fraction] <;> omega

theorem significand_pos {x : Double} (h : x.magnitude ≠ 0) : 0 < x.significand := by
  unfold significand
  split
  · rename_i hfield
    simp only [exponentField] at hfield
    simp only [fraction]
    omega
  · omega

theorem finer_below_iff {x : Double} {l : Nat} (hx : x.magnitude = l + 1) :
    x.significand = 0x10000000000000 ∧ 1 < x.exponentField ↔ place l ≠ place (l + 1) := by
  unfold significand
  split <;> rename_i hfield <;> simp only [fraction, exponentField, hx, place] at * <;> omega

theorem significand_mul (x : Double) : (x.significand : ℚ) * 2 ^ x.exponent = value x.magnitude :=
  rfl

theorem zpow_exponent_sub_two (x : Double) :
    (2 : ℚ) ^ (x.exponent - 2) = 2 ^ place x.magnitude / 4 := by
  rw [zpow_sub₀ (by norm_num)]
  norm_num
  rfl

theorem quarters_spec {x : Double} {l : Nat} (hx : x.magnitude = l + 1) :
    (x.quarters.1 * 2 ^ (x.exponent - 2) : ℚ) = midpoint l ∧
      (x.quarters.2.1 * 2 ^ (x.exponent - 2) : ℚ) = value (l + 1) ∧
      (x.quarters.2.2 * 2 ^ (x.exponent - 2) : ℚ) = midpoint (l + 1) := by
  have hvalue := significand_mul x
  have hpos := significand_pos (x := x) (by omega)
  have hlow : midpoint l = value (l + 1) - 2 ^ place l / 2 := by
    rw [midpoint_eq, value_succ]
    ring
  have hexp : (2 : ℚ) ^ x.exponent = 2 ^ place (l + 1) := by rw [← hx]; rfl
  rw [hx, hexp] at hvalue
  rw [zpow_exponent_sub_two, hx, midpoint_eq (l + 1), hlow, ← hvalue]
  simp only [quarters, finer_below_iff hx]
  refine ⟨?_, by push_cast; ring, by push_cast; ring⟩
  split
  · -- below a power of two the last place is half as wide
    rename_i hfiner
    have hplace : place (l + 1) = place l + 1 := by
      simp only [place] at hfiner ⊢
      omega
    rw [hplace, zpow_add_one₀ (by norm_num), Nat.cast_sub (by omega)]
    push_cast
    ring
  · rename_i hsame
    rw [not_not.mp hsame, Nat.cast_sub (by omega)]
    push_cast
    ring

/-! ## Grids -/

theorem pow_toNat_mul (p : ℤ) : ((10 ^ (-p).toNat : Nat) : ℚ) * 10 ^ p = (10 ^ p.toNat : Nat) := by
  push_cast
  rw [← zpow_natCast, ← zpow_natCast, ← zpow_add₀ (by norm_num)]
  congr 1
  omega

/-- The search compares multiples of `2 ^ q` and of `10 ^ p` in a common unit. -/
theorem exists_unit (p q : ℤ) :
    ∃ u : ℚ, 0 < u ∧ (((scaled 1 q).1 * 10 ^ (-p).toNat : Nat) : ℚ) = 2 ^ q * u ∧
      ((10 ^ p.toNat * (scaled 1 q).2 : Nat) : ℚ) = 10 ^ p * u := by
  have hpow := pow_toNat_mul p
  have hscaled := cast_scaled 1 1 (-q)
  have hten : (0 : ℚ) < 10 ^ p := by positivity
  have hden : (0 : ℚ) < (1 <<< (-q).toNat : Nat) := by simp [Nat.shiftLeft_eq]
  rw [neg_neg, zpow_neg, Nat.cast_one, div_one, div_inv_eq_mul, one_mul, div_eq_iff hden.ne']
    at hscaled
  refine ⟨(10 ^ p.toNat * (scaled 1 q).2 : Nat) / 10 ^ p, ?_, ?_, by field_simp⟩
  · rw [Nat.cast_mul, scaled]
    positivity
  · rw [Nat.cast_mul, Nat.cast_mul, ← hpow, scaled, hscaled]
    field_simp

section Grid

variable (tie : Tie) {x : Double} {p : ℤ} {l : Nat}

def grainAt (x : Double) (p : ℤ) : Nat := (scaled 1 (x.exponent - 2)).1 * 10 ^ (-p).toNat

def stepAt (x : Double) (p : ℤ) : Nat := 10 ^ p.toNat * (scaled 1 (x.exponent - 2)).2

def neighbourAt (x : Double) (p : ℤ) : Nat := x.quarters.2.1 * grainAt x p / stepAt x p

def insideAt (x : Double) (p : ℤ) (c : Nat) : Bool :=
  if x.significand % 2 = 0 then
    x.quarters.1 * grainAt x p ≤ c * stepAt x p ∧ c * stepAt x p ≤ x.quarters.2.2 * grainAt x p
  else x.quarters.1 * grainAt x p < c * stepAt x p ∧ c * stepAt x p < x.quarters.2.2 * grainAt x p

theorem mul_grainAt_le_iff {m c : Nat} :
    m * grainAt x p ≤ c * stepAt x p ↔ (m * 2 ^ (x.exponent - 2) : ℚ) ≤ c * 10 ^ p := by
  obtain ⟨u, hu, hgrain, hstep⟩ := exists_unit p (x.exponent - 2)
  rw [← Nat.cast_le (α := ℚ), Nat.cast_mul, Nat.cast_mul, grainAt, stepAt, hgrain, hstep,
    ← mul_assoc, ← mul_assoc, mul_le_mul_iff_left₀ hu]

theorem mul_stepAt_le_iff {m c : Nat} :
    c * stepAt x p ≤ m * grainAt x p ↔ (c * 10 ^ p : ℚ) ≤ m * 2 ^ (x.exponent - 2) := by
  obtain ⟨u, hu, hgrain, hstep⟩ := exists_unit p (x.exponent - 2)
  rw [← Nat.cast_le (α := ℚ), Nat.cast_mul, Nat.cast_mul, grainAt, stepAt, hgrain, hstep,
    ← mul_assoc, ← mul_assoc, mul_le_mul_iff_left₀ hu]

theorem stepAt_pos : 0 < stepAt x p := by
  obtain ⟨u, hu, -, hstep⟩ := exists_unit p (x.exponent - 2)
  have hpos : (0 : ℚ) < stepAt x p := by
    rw [stepAt, hstep]
    positivity
  exact_mod_cast hpos

theorem neighbourAt_le (hx : x.magnitude = l + 1) :
    (neighbourAt x p * 10 ^ p : ℚ) ≤ value (l + 1) := by
  obtain ⟨-, hmid, -⟩ := quarters_spec hx
  rw [← hmid, ← mul_stepAt_le_iff]
  exact Nat.div_mul_le_self ..

theorem lt_neighbourAt_succ (hx : x.magnitude = l + 1) :
    value (l + 1) < (neighbourAt x p + 1 : Nat) * 10 ^ p := by
  obtain ⟨-, hmid, -⟩ := quarters_spec hx
  rw [← hmid, ← not_le, ← mul_stepAt_le_iff, not_le, Nat.succ_mul]
  exact Nat.lt_div_mul_add stepAt_pos

theorem insideAt_iff (hx : x.magnitude = l + 1) {c : Nat} :
    insideAt x p c = true ↔ RoundsTo (c * 10 ^ p) (l + 1) := by
  obtain ⟨hlow, -, hhigh⟩ := quarters_spec hx
  rw [insideAt, significand_mod_two, hx, roundsTo_succ_iff]
  split
  · rw [decide_eq_true_iff, mul_grainAt_le_iff, mul_stepAt_le_iff, hlow, hhigh]
  · rw [decide_eq_true_iff, ← not_le, ← not_le, mul_grainAt_le_iff, mul_stepAt_le_iff, hlow, hhigh,
      not_le, not_le]

theorem exists_onGrid_eq :
    ∃ upward : Bool, onGrid tie x p =
      match insideAt x p (neighbourAt x p), insideAt x p (neighbourAt x p + 1) with
      | true, true => some (.ofScaled (if upward then neighbourAt x p + 1 else neighbourAt x p) p)
      | true, false => some (.ofScaled (neighbourAt x p) p)
      | false, true => some (.ofScaled (neighbourAt x p + 1) p)
      | false, false => none :=
  ⟨_, rfl⟩

theorem neighbour_of_onGrid {d : Digits} (h : onGrid tie x p = some d) :
    ∃ e, (e = neighbourAt x p ∨ e = neighbourAt x p + 1) ∧ insideAt x p e = true ∧
      d = .ofScaled e p := by
  obtain ⟨upward, heq⟩ := exists_onGrid_eq tie (x := x) (p := p)
  rw [heq] at h
  cases hlast : insideAt x p (neighbourAt x p) <;>
    cases hnext : insideAt x p (neighbourAt x p + 1) <;>
    simp only [hlast, hnext, reduceCtorEq, Option.some.injEq] at h <;> subst h
  · exact ⟨_, .inr rfl, hnext, rfl⟩
  · exact ⟨_, .inl rfl, hlast, rfl⟩
  · cases upward with
    | false => exact ⟨_, .inl rfl, hlast, rfl⟩
    | true => exact ⟨_, .inr rfl, hnext, rfl⟩

theorem outside_of_onGrid (h : onGrid tie x p = none) :
    insideAt x p (neighbourAt x p) = false ∧ insideAt x p (neighbourAt x p + 1) = false := by
  obtain ⟨upward, heq⟩ := exists_onGrid_eq tie (x := x) (p := p)
  rw [heq] at h
  cases hlast : insideAt x p (neighbourAt x p) <;>
    cases hnext : insideAt x p (neighbourAt x p + 1) <;>
    simp only [hlast, hnext, reduceCtorEq] at h
  exact ⟨rfl, rfl⟩

theorem onGrid_spec (hx : x.magnitude = l + 1) :
    ∃ c : Nat, (c * 10 ^ p : ℚ) ≤ value (l + 1) ∧ value (l + 1) < (c + 1 : Nat) * 10 ^ p ∧
      (∀ d, onGrid tie x p = some d →
        ∃ e, (e = c ∨ e = c + 1) ∧ RoundsTo (e * 10 ^ p) (l + 1) ∧ d = .ofScaled e p) ∧
      (onGrid tie x p = none →
        ¬ RoundsTo (c * 10 ^ p) (l + 1) ∧ ¬ RoundsTo ((c + 1 : Nat) * 10 ^ p) (l + 1)) := by
  refine ⟨neighbourAt x p, neighbourAt_le hx, lt_neighbourAt_succ hx, fun d h => ?_, fun h => ?_⟩
  · obtain ⟨e, he, hinside, hd⟩ := neighbour_of_onGrid tie h
    exact ⟨e, he, (insideAt_iff hx).mp hinside, hd⟩
  · obtain ⟨hlast, hnext⟩ := outside_of_onGrid tie h
    exact ⟨mt (insideAt_iff hx).mpr (by simp [hlast]), mt (insideAt_iff hx).mpr (by simp [hnext])⟩

theorem exists_onGrid (hx : x.magnitude = l + 1)
    (hwidth : (10 ^ p : ℚ) < midpoint (l + 1) - midpoint l) : ∃ d, onGrid tie x p = some d := by
  obtain ⟨c, hlow, hhigh, -, hnone⟩ := onGrid_spec tie (p := p) hx
  cases h : onGrid tie x p with
  | some d => exact ⟨d, rfl⟩
  | none =>
      obtain ⟨hlast, hnext⟩ := hnone h
      have hvalue : value (l + 1) < midpoint (l + 1) := value_lt_midpoint (l + 1)
      have hvalue' : midpoint l < value (l + 1) := midpoint_lt_value (Nat.lt_succ_self l)
      have hbelow : (c * 10 ^ p : ℚ) ≤ midpoint l := by
        by_contra hgt
        exact hlast (roundsTo_of_between (not_le.mp hgt) (hlow.trans_lt hvalue))
      have habove : midpoint (l + 1) ≤ (c + 1 : Nat) * 10 ^ p := by
        by_contra hlt
        exact hnext (roundsTo_of_between (hvalue'.trans hhigh) (not_le.mp hlt))
      push_cast at habove
      linarith

end Grid

/-- The interval of a double is wider than the grid on which it has seventeen digits. -/
theorem value_lt_width (l : Nat) :
    value (l + 1) < 10 ^ 16 * (midpoint (l + 1) - midpoint l) := by
  have hgap : (0 : ℚ) < 2 ^ place (l + 1) := by positivity
  have hwidth : midpoint (l + 1) - midpoint l = 2 ^ place l / 2 + 2 ^ place (l + 1) / 2 := by
    rw [midpoint_eq, midpoint_eq, value_succ]
    ring
  obtain ⟨k, r, hl, hplace, hr, hexp, hvalue⟩ := exists_significand (l + 1)
  by_cases hsame : place l = place (l + 1)
  · have hr' : (r : ℚ) < 2 ^ 53 := by exact_mod_cast hr
    rw [hwidth, hvalue, hsame]
    nlinarith
  · have hfine : place (l + 1) = place l + 1 := by
      simp only [place] at hsame ⊢
      omega
    have hpower : r = 2 ^ 52 := by
      simp only [place] at hexp hsame
      omega
    rw [hfine, zpow_add_one₀ (by norm_num)] at hgap hvalue hwidth
    rw [hwidth, hvalue, hpower]
    push_cast
    linarith

/-! ## The search -/

theorem exists_length_digits_div {n d : Nat} (hd : 0 < d) (hle : d ≤ n) :
    ∃ j, (Decimal.digits (n / d)).length = j + 1 ∧ 10 ^ j * d ≤ n ∧ n < 10 ^ (j + 1) * d := by
  have hq : 0 < n / d := Nat.div_pos hle hd
  have hlow := Decimal.pow_length_digits_le hq
  have hhigh := Decimal.lt_pow_length_digits (n / d)
  have hlength := Decimal.length_digits_pos (n / d)
  generalize (Decimal.digits (n / d)).length = k at *
  obtain ⟨j, rfl⟩ : ∃ j, k = j + 1 := ⟨k - 1, by omega⟩
  rw [Nat.add_sub_cancel] at hlow
  exact ⟨j, rfl, (Nat.le_div_iff_mul_le hd).mp hlow, (Nat.div_lt_iff_lt_mul hd).mp hhigh⟩

theorem floorLog10_bounds {n d : Nat} (hn : 0 < n) (hd : 0 < d) :
    (10 : ℚ) ^ floorLog10 n d ≤ n / d ∧ (n / d : ℚ) < 10 ^ (floorLog10 n d + 1) := by
  have hn' : (0 : ℚ) < n := by exact_mod_cast hn
  have hd' : (0 : ℚ) < d := by exact_mod_cast hd
  unfold floorLog10
  split
  · rename_i hle
    obtain ⟨j, hlength, hlow, hhigh⟩ := exists_length_digits_div hd hle
    have hcast : ((j + 1 : Nat) : ℤ) - 1 = (j : Nat) := by omega
    rw [hlength, hcast, zpow_natCast, ← Nat.cast_succ, zpow_natCast, le_div_iff₀ hd',
      div_lt_iff₀ hd']
    exact ⟨by exact_mod_cast hlow, by exact_mod_cast hhigh⟩
  · obtain ⟨j, hlength, hlow, hhigh⟩ := exists_length_digits_div (n := d) hn (by omega)
    have hten : (0 : ℚ) < 10 ^ j := by positivity
    simp only [Nat.pow_eq, hlength, Nat.add_sub_cancel]
    split
    · rename_i hpower
      have hexp : (1 : ℤ) - (j + 1 : Nat) = -(j : ℤ) := by omega
      have hvalue : (n / d : ℚ) = 10 ^ (-(j : ℤ)) := by
        rw [hpower, zpow_neg, zpow_natCast]
        push_cast
        field_simp
      rw [hexp, hvalue]
      exact ⟨le_rfl, zpow_lt_zpow_right₀ (by norm_num) (Int.lt_succ _)⟩
    · rename_i hpower
      have hexp : -((j + 1 : Nat) : ℤ) + 1 = -(j : ℤ) := by omega
      rw [hexp, zpow_neg, zpow_neg, zpow_natCast, zpow_natCast, le_div_iff₀ hd',
        inv_mul_le_iff₀ (by positivity), div_lt_iff₀ hd', lt_inv_mul_iff₀ hten]
      have hstrict : 10 ^ j * n < d := by
        rw [Nat.mul_comm n] at hpower
        omega
      exact ⟨by exact_mod_cast hhigh.le, by exact_mod_cast hstrict⟩

theorem exists_first_of_findSome?_range {β : Type} {f : Nat → Option β} {n : Nat} {b : β}
    (h : (List.range n).findSome? f = some b) :
    ∃ k < n, f k = some b ∧ ∀ j < k, f j = none := by
  induction n with
  | zero => cases h
  | succ n ih =>
      rw [List.range_succ, List.findSome?_append, Option.or_eq_some_iff] at h
      rcases h with h | ⟨hnone, hlast⟩
      · obtain ⟨k, hk, hsome, hbefore⟩ := ih h
        exact ⟨k, hk.trans n.lt_succ_self, hsome, hbefore⟩
      · refine ⟨n, n.lt_succ_self, by simpa using hlast, fun j hj => ?_⟩
        exact List.findSome?_eq_none_iff.mp hnone j (List.mem_range.mpr hj)

theorem exists_grid_shortest {x : Double} {l : Nat} (tie : Tie) (hx : x.magnitude = l + 1) :
    ∃ s : ℤ, (10 : ℚ) ^ s ≤ value (l + 1) ∧ value (l + 1) < 10 ^ (s + 1) ∧
      ∃ k < 17, onGrid tie x (s - (k : Nat)) = some (x.shortest tie) ∧
        ∀ j < k, onGrid tie x (s - (j : Nat)) = none := by
  have hzero : x.isZero = false := by simp [isZero, hx]
  have hn : 0 < x.ratio.1 := numerator_pos (by omega)
  obtain ⟨hlog, hlog'⟩ := floorLog10_bounds hn (ratio_pos x)
  rw [cast_ratio, hx] at hlog hlog'
  simp only [shortest, hzero, Bool.false_eq_true, if_false]
  generalize floorLog10 x.ratio.1 x.ratio.2 = s at *
  refine ⟨s, hlog, hlog', ?_⟩
  have hfine : (10 : ℚ) ^ (s - (16 : Nat)) < midpoint (l + 1) - midpoint l := by
    have hwidth := value_lt_width l
    rw [zpow_sub₀ (by norm_num), zpow_natCast, div_lt_iff₀ (by positivity)]
    linarith
  obtain ⟨d, hd⟩ := exists_onGrid tie hx hfine
  cases hfound : (List.range 17).findSome? fun k : Nat => onGrid tie x (s - k) with
  | none =>
      rw [List.findSome?_eq_none_iff.mp hfound 16 (by decide)] at hd
      cases hd
  | some d =>
      rw [Option.getD_some]
      exact exists_first_of_findSome?_range hfound

theorem shortest_spec {x : Double} {l : Nat} (tie : Tie) (hx : x.magnitude = l + 1) :
    ∃ (c : Nat) (p : ℤ), x.shortest tie = .ofScaled c p ∧ 0 < c ∧ c ≤ 10 ^ 17 ∧
      RoundsTo (c * 10 ^ p) (l + 1) := by
  obtain ⟨s, hlog, hlog', k, hk, hgrid, -⟩ := exists_grid_shortest tie hx
  obtain ⟨c, hlow, hhigh, hsome, -⟩ := onGrid_spec tie (p := s - k) hx
  obtain ⟨e, he, hround, hdigits⟩ := hsome _ hgrid
  have hunit : (0 : ℚ) < 10 ^ (s - (k : ℤ)) := by positivity
  have hpos : 0 < c := by
    by_contra hc
    rw [Nat.eq_zero_of_not_pos hc, Nat.zero_add, Nat.cast_one, one_mul] at hhigh
    have hle : (10 : ℚ) ^ (s - (k : ℤ)) ≤ 10 ^ s := zpow_le_zpow_right₀ (by norm_num) (by omega)
    linarith
  have hbound : c < 10 ^ (k + 1) := by
    have hlt : (c * 10 ^ (s - (k : ℤ)) : ℚ) < 10 ^ (k + 1) * 10 ^ (s - (k : ℤ)) := by
      calc (c * 10 ^ (s - (k : ℤ)) : ℚ) ≤ value (l + 1) := hlow
        _ < 10 ^ (s + 1) := hlog'
        _ = 10 ^ ((k + 1 : Nat) + (s - (k : ℤ))) := by
            congr 1
            omega
        _ = 10 ^ (k + 1) * 10 ^ (s - (k : ℤ)) := by rw [zpow_add₀ (by norm_num), zpow_natCast]
    exact_mod_cast lt_of_mul_lt_mul_right hlt hunit.le
  have hpow : 10 ^ (k + 1) ≤ 10 ^ 17 := Nat.pow_le_pow_right (by decide) hk
  exact ⟨e, _, hdigits, by omega, by omega, hround⟩

/-! ## The digits -/

theorem eq_trimZeros_append {ds : List Nat} (h : Decimal.ofDigits ds ≠ 0) :
    ∃ k, ds = trimZeros ds ++ List.replicate k 0 := by
  have hsplit : ds = (ds.reverse.dropWhile (· = 0)).reverse ++
      (ds.reverse.takeWhile (· = 0)).reverse := by
    rw [← List.reverse_append, List.takeWhile_append_dropWhile, List.reverse_reverse]
  have hzeros : (ds.reverse.takeWhile (· = 0)).reverse =
      List.replicate (ds.reverse.takeWhile (· = 0)).length 0 := by
    rw [List.eq_replicate_iff]
    refine ⟨List.length_reverse, fun d hd => ?_⟩
    simpa using List.mem_takeWhile_imp (List.mem_reverse.mp hd)
  refine ⟨(ds.reverse.takeWhile (· = 0)).length, ?_⟩
  rw [hzeros] at hsplit
  unfold trimZeros
  split
  · rename_i hnil
    rw [hnil, List.nil_append] at hsplit
    rw [hsplit, Decimal.ofDigits_replicate_zero] at h
    exact absurd rfl h
  · exact hsplit

def Digits.value (d : Digits) : ℚ :=
  Decimal.ofDigits d.digits * 10 ^ (d.exponent - d.digits.length + 1)

/-- Digits without a leading zero, and no more than seventeen of them. -/
structure Digits.Regular (d : Digits) : Prop where
  lt : ∀ y ∈ d.digits, y < 10
  length_le : d.digits.length ≤ 17
  head : ∃ y ys, d.digits = y :: ys ∧ y ≠ 0

theorem regular_ofScaled {c : Nat} (p : ℤ) (hc : 0 < c) (hle : c ≤ 10 ^ 17) :
    (Digits.ofScaled c p).Regular ∧ (Digits.ofScaled c p).value = c * 10 ^ p := by
  have hvalue := Decimal.ofDigits_digits c
  have hne : Decimal.ofDigits (Decimal.digits c) ≠ 0 := by omega
  obtain ⟨k, hk⟩ := eq_trimZeros_append hne
  have hlength := congrArg List.length hk
  rw [List.length_append, List.length_replicate] at hlength
  refine ⟨⟨?_, ?_, ?_⟩, ?_⟩
  · intro y hy
    refine Decimal.digits_lt c y ?_
    rw [hk]
    exact List.mem_append_left _ hy
  · rcases Nat.lt_or_eq_of_le hle with hlt | rfl
    · have hpow := Decimal.pow_length_digits_le hc
      have hdigits := (Nat.pow_lt_pow_iff_right (by decide)).mp (hpow.trans_lt hlt)
      change (trimZeros (Decimal.digits c)).length ≤ 17
      omega
    · have hone : (Digits.ofScaled (10 ^ 17) p).digits = [1] := by
        simp [Digits.ofScaled, Decimal.digits, trimZeros]
      rw [hone]
      decide
  · obtain ⟨y, ys, hys, hy⟩ := Decimal.exists_head_digits hc
    change ∃ y ys, trimZeros (Decimal.digits c) = y :: ys ∧ y ≠ 0
    cases htrim : trimZeros (Decimal.digits c) with
    | nil =>
        rw [htrim, List.nil_append] at hk
        rw [hk, Decimal.ofDigits_replicate_zero] at hvalue
        omega
    | cons z zs =>
        rw [htrim, hys, List.cons_append, List.cons.injEq] at hk
        exact ⟨z, zs, rfl, hk.1 ▸ hy⟩
  · have hexp : p + (Decimal.digits c).length - 1 - (trimZeros (Decimal.digits c)).length + 1 =
        k + p := by omega
    rw [hk, Decimal.ofDigits_append, Decimal.ofDigits_replicate_zero, List.length_replicate]
      at hvalue
    rw [Digits.value, Digits.ofScaled]
    simp only [hexp]
    have hcast : (Decimal.ofDigits (trimZeros (Decimal.digits c)) * 10 ^ k : ℚ) = c := by
      exact_mod_cast hvalue
    rw [zpow_add₀ (by norm_num), zpow_natCast, ← mul_assoc, hcast]

theorem shortest_of_isZero {x : Double} (tie : Tie) (hx : x.magnitude = 0) :
    x.shortest tie = ⟨[0], 0⟩ := by
  simp [shortest, isZero, hx]

theorem roundsTo_shortest {x : Double} (tie : Tie) (hx : x.magnitude ≠ 0) :
    (x.shortest tie).Regular ∧ RoundsTo (x.shortest tie).value x.magnitude := by
  obtain ⟨l, hl⟩ : ∃ l, x.magnitude = l + 1 := ⟨x.magnitude - 1, by omega⟩
  obtain ⟨c, p, hshortest, hpos, hle, hround⟩ := shortest_spec tie hl
  obtain ⟨hregular, hvalue⟩ := regular_ofScaled p hpos hle
  rw [hshortest, hvalue, hl]
  exact ⟨hregular, hround⟩

end SchemaSieve.Double
