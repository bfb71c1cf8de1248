import SchemaSieve.Proofs.Equality
import SchemaSieve.Proofs.WholeDoubles
import SchemaSieve.Proofs.Widening

/-!
# Integers as doubles

A value taken for an integer and then for a double gives the double that the value gives
by itself.  The two are rounded from one number on every way to an integer: from the
integer itself, or from a double that is this integer and so its own nearest double.
Numbers have one nearest double, up to the sign of zero.
-/

namespace SchemaSieve

namespace Double

/-! ## One number, one double -/

variable {q : ℚ} {x y : Double}

theorem IsRounded.toRat_unique (hx : IsRounded q x) (hy : IsRounded q y) :
    x.toRat = y.toRat := by
  rcases lt_or_ge q 0 with hq | hq
  · rw [hx.toRat_of_neg hq, hy.toRat_of_neg hq]
  · rw [hx.toRat_of_nonneg hq, hy.toRat_of_nonneg hq]

theorem negative_eq_of_magnitude (h : x.magnitude ≠ 0) : x.negative = decide (x.toRat < 0) := by
  have hpos := value_pos h
  rw [toRat]
  cases x.negative with
  | false => simp [hpos.le]
  | true => simp [hpos]

theorem equal_of_toRat_eq (hfinite : x.isFinite = true) (h : x.toRat = y.toRat) :
    x.equal y = true := by
  have hmagnitude : x.magnitude = y.magnitude := by
    apply value_strictMono.injective
    rw [← abs_toRat, ← abs_toRat, h]
  rcases eq_or_ne x.magnitude 0 with hzero | hzero
  · simp [equal, isNaN_of_isFinite hfinite, isZero, hzero, ← hmagnitude]
  · have hsign : x.negative = y.negative := by
      rw [negative_eq_of_magnitude hzero, negative_eq_of_magnitude (hmagnitude ▸ hzero), h]
    rw [ext_magnitude hsign hmagnitude, equal_self]

theorem isRounded_toRat (hfinite : x.isFinite = true) : IsRounded x.toRat x := by
  rw [isFinite_iff] at hfinite
  constructor
  · rw [abs_toRat, nearest_value hfinite]
  · exact fun hne => negative_eq_of_magnitude fun hzero => hne (toRat_eq_zero_iff.mpr hzero)

theorem isRounded_ofInt (n : ℤ) : IsRounded n (ofInt n) := by
  have habs : ((n.natAbs : ℚ) / (1 : Nat)) = |(n : ℚ)| := by
    rw [Nat.cast_one, div_one, Nat.cast_natAbs, Int.cast_abs]
  constructor
  · rw [ofInt, magnitude_ofRatio _ _ Nat.one_pos, habs]
  · intro _
    rw [ofInt, negative_ofRatio _ _ Nat.one_pos]
    simp

theorem ofInt_natCast (n : Nat) : ofInt n = ofNat n := rfl

theorem isRounded_ofNat (n : Nat) : IsRounded n (ofNat n) := by
  rw [← ofInt_natCast, ← Int.cast_natCast]
  exact isRounded_ofInt n

end Double

namespace Coercion

open Decimal Double

/-! ## The ways to an integer -/

/-- The integer form of a value, by where it comes from. -/
inductive IntegerForm : Value → Value → Prop
  | integer (i : Int64) : IntegerForm (.integer i) (.integer i)
  | unsigned (u : UInt64) : IntegerForm (.unsigned u) (.unsigned u)
  | double {x : Double} {i : Int64} (whole : integral? x = some i) :
      IntegerForm (.float x) (.integer i)
  | digits {s : String} {i : Int64} (read : readInt? s.toList = some i.toInt) :
      IntegerForm (.string s) (.integer i)
  | rounded {s : String} {i : Int64} {n : Numeral} (read : Numeral.read? s.toList = some n)
      (whole : integral? (nearest n) = some i) : IntegerForm (.string s) (.integer i)
  | unsignedDigits {s : String} {u : UInt64} (read : readUnsigned? s.toList = some u.toNat) :
      IntegerForm (.string s) (.unsigned u)

variable {v w : Value} {s : String}

theorem integerForm_of_integerOfText? {i : Int64} (h : integerOfText? s = some i) :
    IntegerForm (.string s) (.integer i) := by
  unfold integerOfText? at h
  split at h
  · cases h
  next n hread =>
    split at h
    next hdigits =>
      cases h
      obtain ⟨k, hk, hsigned⟩ := Option.bind_eq_some_iff.mp hdigits
      rw [← signed?_eq_some_iff.mp hsigned] at hk
      exact .digits hk
    · exact .rounded hread h

theorem integerForm_of_toUnsigned? {u : UInt64} (h : toUnsigned? v = some u) :
    IntegerForm v (.unsigned u) := by
  unfold toUnsigned? at h
  split at h
  · cases h
    exact .unsigned _
  · split at h
    next n hread =>
      split at h
      next hn =>
        cases h
        exact .unsignedDigits (by rw [hread, UInt64.toNat_ofNat_of_lt' hn])
      · cases h
    · cases h
  · cases h

theorem integerForm_of_coerce? (h : coerce? .int v = some w) : IntegerForm v w := by
  simp only [coerce?] at h
  split at h
  next i hi =>
    cases h
    unfold toInteger? at hi
    split at hi
    · cases hi
      exact .integer _
    · exact .double hi
    · exact integerForm_of_integerOfText? hi
    · cases hi
  · obtain ⟨u, hu, rfl⟩ := Option.map_eq_some_iff.mp h
    exact integerForm_of_toUnsigned? hu

/-! ## Both doubles are rounded from one number -/

theorem eq_of_finite? {x y : Double} (h : finite? x = some y) : y = x := by
  unfold finite? at h
  split at h
  · cases h
    rfl
  · cases h

theorem isRounded_of_toFloat? {n : Numeral} {a : Double} (hread : Numeral.read? s.toList = some n)
    (h : toFloat? (.string s) = some a) : IsRounded n.value a := by
  simp only [toFloat?, hread] at h
  rw [eq_of_finite? h]
  exact isRounded_nearest n

theorem isRounded_of_integral? {x : Double} {i : Int64} (h : integral? x = some i) :
    IsRounded x.toRat x ∧ IsRounded x.toRat (ofInt i.toInt) := by
  obtain ⟨hfinite, hvalue⟩ := integral?_eq_some_iff.mp h
  exact ⟨isRounded_toRat hfinite, hvalue ▸ isRounded_ofInt _⟩

theorem exists_isRounded {a b : Double} (h : IntegerForm v w) (ha : toFloat? v = some a)
    (hb : toFloat? w = some b) : ∃ q, IsRounded q a ∧ IsRounded q b := by
  cases h with
  | integer i =>
      cases ha
      cases hb
      exact ⟨_, isRounded_ofInt _, isRounded_ofInt _⟩
  | unsigned u =>
      cases ha
      cases hb
      exact ⟨_, isRounded_ofNat _, isRounded_ofNat _⟩
  | double whole =>
      cases hb
      rw [eq_of_finite? ha]
      exact ⟨_, isRounded_of_integral? whole⟩
  | digits read =>
      cases hb
      obtain ⟨n, hread, hvalue⟩ := read?_value_of_readInt? read
      exact ⟨_, isRounded_of_toFloat? hread ha, hvalue ▸ isRounded_ofInt _⟩
  | rounded read whole =>
      -- the numeral need not be the integer, but its nearest double is
      cases hb
      simp only [toFloat?, read] at ha
      rw [eq_of_finite? ha]
      exact ⟨_, isRounded_of_integral? whole⟩
  | unsignedDigits read =>
      cases hb
      obtain ⟨n, hread, hvalue⟩ := read?_value_of_readInt? (readInt?_of_readUnsigned? read)
      rw [Int.cast_natCast] at hvalue
      exact ⟨_, isRounded_of_toFloat? hread ha, hvalue ▸ isRounded_ofNat _⟩

theorem coerce?_float_of_toFloat? {a : Double} (h : toFloat? v = some a) :
    coerce? .float v = some (.float a) := by
  rw [coerce?, h]
  rfl

theorem exists_toFloat? (h : coerce? .int v = some w) : ∃ a, toFloat? v = some a := by
  have haccepts : accepts .float v = true :=
    accepts_float_of_accepts_int (by simp [accepts, h])
  rwa [accepts, coerce?, Option.isSome_map, Option.isSome_iff_exists] at haccepts

/-- The double of an integer form is the double of the value it came from. -/
theorem float_of_integer_form (h : coerce? .int v = some w) :
    ∃ a b, coerce? .float v = some a ∧ coerce? .float w = some b ∧ b.equal a = true := by
  obtain ⟨a, ha⟩ := exists_toFloat? h
  obtain ⟨b, hb⟩ := exists_toFloat? (coerce?_coerce? h)
  obtain ⟨q, hqa, hqb⟩ := exists_isRounded (integerForm_of_coerce? h) ha hb
  have hequal : b.equal a = true :=
    equal_of_toRat_eq (isFinite_of_toFloat? hb) (hqb.toRat_unique hqa)
  refine ⟨.float a, .float b, coerce?_float_of_toFloat? ha, coerce?_float_of_toFloat? hb, ?_⟩
  rw [Value.equal]
  exact hequal

theorem float_of_integer_form_smaller :
    coerce? .int (.string "-9223372036854775809") = some (.integer (-9223372036854775808)) ∧
      ∃ a b, coerce? .float (.string "-9223372036854775809") = some a ∧
        coerce? .float (.integer (-9223372036854775808)) = some b ∧ b.equal a = true := by
  have hint : coerce? .int (.string "-9223372036854775809") =
      some (.integer (-9223372036854775808)) :=
    coerce?_of_integerOfText? (by decide +kernel)
  exact ⟨hint, float_of_integer_form hint⟩

end Coercion

end SchemaSieve
