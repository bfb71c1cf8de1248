import SchemaSieve.Proofs.Rereading

/-!
# Numerals rounded to doubles

A numeral is rounded once, to the double nearest to the number it denotes, a tie
going to the even significand; the two early answers for numerals far out of range
are the rounded values.  A double counts as an integer where its value is one.
-/

namespace SchemaSieve.Double

/-! ## Values -/

/-- The number that a finite double stands for. -/
def toRat (x : Double) : ℚ := if x.negative then -value x.magnitude else value x.magnitude

theorem abs_toRat (x : Double) : |x.toRat| = value x.magnitude := by
  unfold toRat
  split
  · rw [abs_neg, abs_of_nonneg (value_nonneg _)]
  · exact abs_of_nonneg (value_nonneg _)

theorem value_eq_natCast_iff {x : Double} {k : Nat} :
    value x.magnitude = k ↔ x.ratio.1 = k * x.ratio.2 := by
  have hpos : (0 : ℚ) < x.ratio.2 := by exact_mod_cast ratio_pos x
  rw [← cast_ratio, div_eq_iff hpos.ne']
  exact_mod_cast Iff.rfl

theorem integral?_eq_some_iff {x : Double} {n : ℤ} :
    x.integral? = some n ↔ x.isFinite = true ∧ x.toRat = n := by
  have hpos := ratio_pos x
  unfold integral?
  constructor
  · intro h
    split at h
    next hwhole =>
      obtain ⟨hfinite, hmod⟩ := hwhole
      have hvalue : value x.magnitude = (x.ratio.1 / x.ratio.2 : Nat) :=
        value_eq_natCast_iff.mpr (Nat.div_mul_cancel (Nat.dvd_of_mod_eq_zero hmod)).symm
      refine ⟨hfinite, ?_⟩
      rw [toRat, hvalue]
      cases h
      split <;> push_cast <;> rfl
    · cases h
  · rintro ⟨hfinite, hvalue⟩
    have habs : value x.magnitude = n.natAbs := by
      rw [← abs_toRat, hvalue, Nat.cast_natAbs, Int.cast_abs]
    have hratio := value_eq_natCast_iff.mp habs
    rw [if_pos ⟨hfinite, by rw [hratio, Nat.mul_mod_left]⟩]
    simp only [hratio, Nat.mul_div_cancel _ hpos]
    rw [toRat, habs] at hvalue
    rw [Option.some.injEq, ← Int.cast_inj (α := ℚ), ← hvalue]
    split <;> simp

/-! ## Numerals out of range -/

theorem nearest_of_huge {q : ℚ} (h : 2 ^ (1024 : ℤ) ≤ q) : nearest q = infiniteMagnitude := by
  have hq : 0 ≤ q := le_trans (by positivity) h
  refine Nat.le_antisymm (nearest_le_infinite q) (Nat.le_of_not_lt fun hlt => ?_)
  have hbelow := (nearest_le_iff hq hlt).mp le_rfl
  have hvalue := midpoint_lt_value hlt
  rw [value_infinite] at hvalue
  exact absurd hbelow.le (not_le.mpr (hvalue.trans_le h))

theorem midpoint_zero : midpoint 0 = 2 ^ (-1075 : ℤ) := by
  have hplace : place 0 = -1074 := rfl
  rw [midpoint_eq, value_zero, hplace, zero_add, show (-1074 : ℤ) = -1075 + 1 by rfl,
    zpow_add_one₀ (by norm_num), mul_div_cancel_right₀ _ (by norm_num)]

theorem nearest_of_tiny {q : ℚ} (hq : 0 ≤ q) (h : q < 2 ^ (-1075 : ℤ)) : nearest q = 0 := by
  rw [← midpoint_zero] at h
  exact Nat.le_zero.mp ((nearest_le_iff hq (by decide)).mpr (.inl h))

/-- Since `8 ^ k ≤ 10 ^ k`, the powers of ten that are not worked out are out of range. -/
theorem two_zpow_le_ten_pow {e : ℤ} {k : Nat} (h : e ≤ 3 * k) : (2 : ℚ) ^ e ≤ 10 ^ k := by
  calc (2 : ℚ) ^ e ≤ 2 ^ ((3 * k : Nat) : ℤ) := zpow_le_zpow_right₀ (by norm_num) (by omega)
    _ = 8 ^ k := by rw [zpow_natCast, pow_mul]; norm_num
    _ ≤ 10 ^ k := pow_le_pow_left₀ (by norm_num) (by norm_num) k

theorem magnitude_zero (negative : Bool) : (zero negative).magnitude = 0 :=
  magnitude_ofMagnitude (by decide)

theorem magnitude_infinity (negative : Bool) : (infinity negative).magnitude = infiniteMagnitude :=
  magnitude_ofMagnitude (by decide)

theorem magnitude_ofDecimal (negative : Bool) (m : Nat) (e : ℤ) :
    (ofDecimal negative m e).magnitude = nearest (m * 10 ^ e) := by
  unfold ofDecimal
  split_ifs with hzero hsign hhuge htiny
  · rw [hzero, Nat.cast_zero, zero_mul, magnitude_zero]
    rfl
  · obtain ⟨k, rfl⟩ := Int.eq_ofNat_of_zero_le hsign
    have hpos : (1 : ℚ) ≤ m := by exact_mod_cast Nat.pos_of_ne_zero hzero
    have hten : (2 : ℚ) ^ (1024 : ℤ) ≤ 10 ^ k := two_zpow_le_ten_pow (by omega)
    rw [magnitude_infinity, nearest_of_huge]
    calc (2 : ℚ) ^ (1024 : ℤ) ≤ 1 * 10 ^ k := by rw [one_mul]; exact hten
      _ ≤ m * 10 ^ (k : ℤ) := by rw [zpow_natCast]; gcongr
  · obtain ⟨k, rfl⟩ := Int.eq_ofNat_of_zero_le hsign
    rw [magnitude_ofRatio _ _ Nat.one_pos, Int.toNat_natCast, zpow_natCast, Nat.cast_mul,
      cast_pow_ten, Nat.cast_one, div_one]
  · obtain ⟨k, rfl⟩ : ∃ k : Nat, e = -k := ⟨(-e).toNat, by omega⟩
    have hlog : (m : ℚ) < 2 ^ ((m.log2 : ℤ) + 1) := by exact_mod_cast Nat.lt_log2_self
    have hten : (2 : ℚ) ^ ((m.log2 : ℤ) + 1 + 1075) ≤ 10 ^ k := two_zpow_le_ten_pow (by omega)
    have hpos : (0 : ℚ) < 10 ^ k := by positivity
    rw [magnitude_zero, nearest_of_tiny]
    · positivity
    · rw [zpow_neg, zpow_natCast, ← div_eq_mul_inv, div_lt_iff₀ hpos]
      calc (m : ℚ) < 2 ^ ((m.log2 : ℤ) + 1) := hlog
        _ = 2 ^ (-1075 : ℤ) * 2 ^ ((m.log2 : ℤ) + 1 + 1075) := by
            rw [← zpow_add₀ two_ne_zero, neg_add_cancel_comm_assoc]
        _ ≤ 2 ^ (-1075 : ℤ) * 10 ^ k := by gcongr
  · obtain ⟨k, rfl⟩ : ∃ k : Nat, e = -k := ⟨(-e).toNat, by omega⟩
    have hpos : 0 < Nat.pow 10 k := Nat.pow_pos (by decide)
    rw [neg_neg, Int.toNat_natCast, magnitude_ofRatio _ _ hpos, cast_pow_ten, zpow_neg,
      zpow_natCast, div_eq_mul_inv]

theorem negative_ofDecimal (negative : Bool) (m : Nat) (e : ℤ) :
    (ofDecimal negative m e).negative = negative := by
  unfold ofDecimal
  split_ifs
  · exact negative_ofMagnitude (by decide)
  · exact negative_ofMagnitude (by decide)
  · exact negative_ofRatio _ _ Nat.one_pos
  · exact negative_ofMagnitude (by decide)
  · exact negative_ofRatio _ _ (Nat.pow_pos (by decide))

/-! ## The nearest double -/

/-- The double is nearer to the number than any other, or as near and even. -/
def IsNearest (q : ℚ) (x : Double) : Prop :=
  x.isFinite = true ∧ ∀ y : Double, y.isFinite = true → y.toRat ≠ x.toRat →
    |q - x.toRat| < |q - y.toRat| ∨ |q - x.toRat| = |q - y.toRat| ∧ x.significand % 2 = 0

def IsClosest (p : ℚ) (m l : Nat) : Prop :=
  |p - value m| < |p - value l| ∨ |p - value m| = |p - value l| ∧ m % 2 = 0

theorem isClosest_of_above {p : ℚ} {m l : Nat} (h : Below p m) (hl : m < l) :
    IsClosest p m l := by
  have hnext : value (m + 1) ≤ value l := value_strictMono.monotone hl
  have hvalue : value m < value (m + 1) := value_strictMono m.lt_succ_self
  have hmid : 2 * midpoint m = value m + value (m + 1) := by rw [midpoint]; ring
  have hle := h.le
  have hfar : |p - value l| = value l - p := by
    rw [abs_sub_comm, abs_of_nonneg (by linarith)]
  rw [IsClosest, hfar]
  rcases lt_or_ge p (value m) with hp | hp
  · left
    rw [abs_sub_comm, abs_of_pos (by linarith)]
    linarith
  · rw [abs_of_nonneg (by linarith)]
    rcases h with h | ⟨h, heven⟩
    · left
      linarith
    · rcases lt_or_eq_of_le hnext with hlt | heq
      · left
        linarith
      · right
        exact ⟨by linarith, heven⟩

theorem isClosest_of_below {p : ℚ} {k l : Nat} (h : ¬ Below p k) (hl : l ≤ k) :
    IsClosest p (k + 1) l := by
  have hprev : value l ≤ value k := value_strictMono.monotone hl
  have hvalue : value k < value (k + 1) := value_strictMono k.lt_succ_self
  have hmid : 2 * midpoint k = value k + value (k + 1) := by rw [midpoint]; ring
  rw [Below, not_or, not_lt, not_and] at h
  obtain ⟨hle, hodd⟩ := h
  have hfar : |p - value l| = p - value l := abs_of_nonneg (by linarith)
  rw [IsClosest, hfar]
  rcases le_or_gt (value (k + 1)) p with hp | hp
  · left
    rw [abs_of_nonneg (by linarith)]
    linarith
  · rw [abs_sub_comm, abs_of_pos (by linarith)]
    rcases lt_or_eq_of_le hle with hlt | heq
    · left
      linarith
    · rcases lt_or_eq_of_le hprev with hlt | hprev
      · left
        linarith
      · right
        have hodd' := hodd heq.symm
        exact ⟨by linarith, by omega⟩

theorem isClosest_of_roundsTo {p : ℚ} {m l : Nat} (h : RoundsTo p m) (hne : l ≠ m) :
    IsClosest p m l := by
  rcases Nat.lt_or_gt_of_ne hne with hlt | hgt
  · obtain ⟨k, rfl⟩ : ∃ k, m = k + 1 := ⟨m - 1, by omega⟩
    exact isClosest_of_below (h.2 k rfl) (by omega)
  · exact isClosest_of_above h.1 hgt

theorem roundsTo_of_isClosest {p : ℚ} {m : Nat} (hnext : IsClosest p m (m + 1))
    (hprev : ∀ k, k + 1 = m → IsClosest p m k) : RoundsTo p m := by
  constructor
  · have hvalue : value m < value (m + 1) := value_strictMono m.lt_succ_self
    by_contra hbelow
    rcases isClosest_of_below hbelow le_rfl with h | ⟨h, heven⟩
    · rcases hnext with h' | ⟨h', -⟩ <;> linarith
    · rcases hnext with h' | ⟨-, heven'⟩
      · linarith
      · omega
  · rintro k rfl hbelow
    rcases isClosest_of_above hbelow k.lt_succ_self with h | ⟨h, heven⟩
    · rcases hprev k rfl with h' | ⟨h', -⟩ <;> linarith
    · rcases hprev k rfl with h' | ⟨-, heven'⟩
      · linarith
      · omega

/-! ## Signs -/

variable {q : ℚ} {x y z : Double}

theorem abs_sub_toRat_of_sign (h : x.negative = decide (q < 0)) :
    |q - x.toRat| = |(|q| - value x.magnitude)| := by
  rw [toRat, h]
  rcases lt_or_ge q 0 with hq | hq
  · rw [decide_eq_true hq, if_pos rfl, abs_of_neg hq, ← abs_neg]
    congr 1
    ring
  · rw [decide_eq_false (not_lt.mpr hq), if_neg Bool.false_ne_true, abs_of_nonneg hq]

theorem abs_sub_toRat_of_ne_sign (h : x.negative ≠ decide (q < 0)) :
    |q - x.toRat| = |q| + value x.magnitude := by
  have hvalue := value_nonneg x.magnitude
  rw [toRat]
  rcases lt_or_ge q 0 with hq | hq
  · have hsign : x.negative = false := by simpa [hq] using h
    rw [hsign, if_neg Bool.false_ne_true, abs_of_neg hq, abs_of_nonpos (by linarith)]
    ring
  · have hsign : x.negative = true := by simpa [not_lt.mpr hq] using h
    rw [hsign, if_pos rfl, abs_of_nonneg hq, sub_neg_eq_add, abs_of_nonneg (by linarith)]

theorem toRat_eq_zero_iff : x.toRat = 0 ↔ x.magnitude = 0 := by
  rw [← abs_eq_zero, abs_toRat, ← value_zero]
  exact value_strictMono.injective.eq_iff

theorem toRat_eq_of_magnitude (hsign : x.negative = y.negative)
    (hmagnitude : x.magnitude = y.magnitude) : x.toRat = y.toRat := by
  rw [toRat, toRat, hsign, hmagnitude]

theorem isClosest_abs_zero {m : Nat} (h : IsClosest |q| m 0) :
    |(|q| - value m)| < |q| ∨ |(|q| - value m)| = |q| ∧ m % 2 = 0 := by
  rwa [IsClosest, value_zero, sub_zero, abs_abs] at h

theorem abs_sub_value_le_of_roundsTo {m : Nat} (h : RoundsTo |q| m) :
    |(|q| - value m)| ≤ |q| := by
  rcases eq_or_ne m 0 with rfl | hm
  · rw [value_zero, sub_zero, abs_abs]
  · rcases isClosest_abs_zero (isClosest_of_roundsTo h hm.symm) with hlt | ⟨heq, -⟩
    · exact hlt.le
    · exact heq.le

theorem value_pos {m : Nat} (hm : m ≠ 0) : 0 < value m := by
  rw [← value_zero]
  exact value_strictMono (Nat.pos_of_ne_zero hm)

/-- The double is what the number is rounded to; a zero may have either sign. -/
structure IsRounded (q : ℚ) (z : Double) : Prop where
  magnitude : z.magnitude = nearest |q|
  negative : q ≠ 0 → z.negative = decide (q < 0)

theorem IsRounded.toRat_of_nonneg (h : IsRounded q z) (hq : 0 ≤ q) :
    z.toRat = value (nearest q) := by
  have hmagnitude := h.magnitude
  rw [abs_of_nonneg hq] at hmagnitude
  rcases eq_or_lt_of_le hq with rfl | hpos
  · rw [← hmagnitude, ← abs_toRat, toRat_eq_zero_iff.mpr hmagnitude, abs_zero]
  · have hsign := h.negative hpos.ne'
    rw [decide_eq_false (not_lt.mpr hq)] at hsign
    rw [toRat, hsign, if_neg Bool.false_ne_true, hmagnitude]

theorem IsRounded.toRat_of_neg (h : IsRounded q z) (hq : q < 0) :
    z.toRat = -value (nearest (-q)) := by
  have hsign := h.negative hq.ne
  rw [decide_eq_true hq] at hsign
  rw [toRat, hsign, if_pos rfl, h.magnitude, abs_of_neg hq]

theorem IsRounded.isNearest (h : IsRounded q z) (hfinite : z.isFinite = true) :
    IsNearest q z := by
  have hround : RoundsTo |q| z.magnitude := by
    rw [h.magnitude]
    apply roundsTo_nearest (abs_nonneg q)
    rwa [← h.magnitude, ← isFinite_iff]
  refine ⟨hfinite, fun y _ hne => ?_⟩
  rw [significand_mod_two]
  rcases eq_or_ne q 0 with rfl | hq
  · have hzero : z.toRat = 0 := by
      rw [toRat_eq_zero_iff, h.magnitude, abs_zero]
      rfl
    rw [hzero] at hne ⊢
    exact .inl (by simpa using hne)
  · have hz := h.negative hq
    rw [abs_sub_toRat_of_sign hz]
    by_cases hy : y.negative = decide (q < 0)
    · rw [abs_sub_toRat_of_sign hy]
      refine isClosest_of_roundsTo hround fun heq => hne ?_
      exact toRat_eq_of_magnitude (hy.trans hz.symm) heq
    · rw [abs_sub_toRat_of_ne_sign hy]
      rcases eq_or_ne y.magnitude 0 with hy0 | hy0
      · rw [hy0, value_zero, add_zero]
        refine isClosest_abs_zero (isClosest_of_roundsTo hround fun heq => hne ?_)
        rw [toRat_eq_zero_iff.mpr hy0, toRat_eq_zero_iff.mpr heq.symm]
      · left
        have hpos := value_pos hy0
        have hle := abs_sub_value_le_of_roundsTo hround
        linarith

theorem IsNearest.sign (h : IsNearest q x) (hx : x.magnitude ≠ 0) :
    x.negative = decide (q < 0) := by
  by_contra hsign
  have hzero : (zero false).toRat = 0 := toRat_eq_zero_iff.mpr (magnitude_zero false)
  have hne : (zero false).toRat ≠ x.toRat := by
    rw [hzero]
    exact fun heq => hx (toRat_eq_zero_iff.mp heq.symm)
  have hpos := value_pos hx
  have hcloser := h.2 (zero false) (isFinite_ofMagnitude (by decide)) hne
  rw [abs_sub_toRat_of_ne_sign hsign, hzero, sub_zero] at hcloser
  rcases hcloser with hlt | ⟨heq, -⟩ <;> linarith

theorem IsNearest.roundsTo (h : IsNearest q x) (hnext : x.magnitude + 1 < infiniteMagnitude) :
    RoundsTo |q| x.magnitude := by
  have hdistance : |q - x.toRat| = |(|q| - value x.magnitude)| := by
    rcases eq_or_ne x.magnitude 0 with hx | hx
    · rw [hx, value_zero, sub_zero, abs_abs, toRat_eq_zero_iff.mpr hx, sub_zero]
    · exact abs_sub_toRat_of_sign (h.sign hx)
  have hclosest : ∀ l < infiniteMagnitude, l ≠ x.magnitude → IsClosest |q| x.magnitude l := by
    intro l hl hne
    have hword : l < 2 ^ 63 := Nat.lt_trans hl (by decide)
    have hmagnitude : (ofMagnitude (decide (q < 0)) l).magnitude = l := magnitude_ofMagnitude hword
    have hsign : (ofMagnitude (decide (q < 0)) l).negative = decide (q < 0) :=
      negative_ofMagnitude hword
    have hcloser := h.2 _ (isFinite_ofMagnitude hl) fun heq => hne <| by
      have habs := congrArg abs heq
      rw [abs_toRat, abs_toRat, hmagnitude] at habs
      exact value_strictMono.injective habs
    rwa [hdistance, abs_sub_toRat_of_sign hsign, hmagnitude, significand_mod_two] at hcloser
  refine roundsTo_of_isClosest (hclosest _ hnext (by omega)) fun k hk => ?_
  exact hclosest k (by omega) (by omega)

theorem IsRounded.toRat_eq (h : IsRounded q z) (hx : IsNearest q x)
    (hnext : x.magnitude + 1 < infiniteMagnitude) : z.isFinite = true ∧ z.toRat = x.toRat := by
  have hmagnitude : z.magnitude = x.magnitude := by
    rw [h.magnitude]
    exact nearest_eq_of_roundsTo (abs_nonneg q) (by omega) (hx.roundsTo hnext)
  refine ⟨by rw [isFinite_iff]; omega, ?_⟩
  rcases eq_or_ne x.magnitude 0 with hx0 | hx0
  · rw [toRat_eq_zero_iff.mpr hx0, toRat_eq_zero_iff, hmagnitude, hx0]
  · refine toRat_eq_of_magnitude ?_ hmagnitude
    rw [hx.sign hx0]
    refine h.negative fun hq => hx0 ?_
    rw [← hmagnitude, h.magnitude, hq, abs_zero]
    rfl

theorem IsNearest.eq_iff (h : IsNearest q x) :
    q = x.toRat ↔ ∃ y : Double, y.isFinite = true ∧ y.toRat = q := by
  constructor
  · rintro rfl
    exact ⟨x, h.1, rfl⟩
  · rintro ⟨y, hy, rfl⟩
    by_contra hne
    rcases h.2 y hy hne with hlt | ⟨heq, -⟩
    · rw [sub_self, abs_zero] at hlt
      exact absurd hlt (not_lt.mpr (abs_nonneg _))
    · rw [sub_self, abs_zero, abs_eq_zero] at heq
      exact hne (sub_eq_zero.mp heq)

end SchemaSieve.Double
