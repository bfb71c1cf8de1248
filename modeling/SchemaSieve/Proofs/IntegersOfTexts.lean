import SchemaSieve.Proofs.CanonicalScalars
import SchemaSieve.Proofs.IntegerRange
import SchemaSieve.Proofs.NumeralTexts

/-!
# Integers out of texts

Digits with a sign are an integer exactly, up to the ends of the signed range;
everything else goes through the nearest double.  Just below the signed range the
nearest double is the least integer, and with a point or a power of ten the double
decides alone, so what comes out is the nearest double where that is an integer.
-/

namespace SchemaSieve

namespace Coercion

open Decimal Double

/-! ## Numerals as integers -/

theorem signed?_eq_some_iff {n : ℤ} {i : Int64} : signed? n = some i ↔ i.toInt = n := by
  unfold signed?
  constructor
  · intro h
    split at h
    next hrange =>
      cases h
      exact Int64.toInt_ofInt_of_le hrange.1 hrange.2
    · cases h
  · rintro rfl
    rw [if_pos ⟨i.le_toInt, i.toInt_lt⟩, Int64.ofInt_toInt]

theorem integral?_eq_some_iff {x : Double} {i : Int64} :
    integral? x = some i ↔ x.isFinite = true ∧ x.toRat = i.toInt := by
  rw [integral?, Option.bind_eq_some_iff]
  constructor
  · rintro ⟨n, hn, hi⟩
    rw [signed?_eq_some_iff.mp hi]
    exact Double.integral?_eq_some_iff.mp hn
  · intro h
    exact ⟨i.toInt, Double.integral?_eq_some_iff.mpr h, signed?_eq_some_iff.mpr rfl⟩

theorem isRounded_nearest (n : Numeral) : IsRounded n.value (nearest n) := by
  have hpow : (0 : ℚ) < 10 ^ n.exponent := by positivity
  have hcast : (0 : ℚ) ≤ n.significand := Nat.cast_nonneg _
  constructor
  · rw [nearest, magnitude_ofDecimal, Numeral.value]
    congr 1
    cases n.negative <;> simp [abs_mul, abs_of_pos hpow]
  · intro hne
    rw [nearest, negative_ofDecimal]
    rw [Numeral.value] at hne ⊢
    have hpos : (0 : ℚ) < n.significand * 10 ^ n.exponent := by
      refine lt_of_le_of_ne (by positivity) fun heq => hne ?_
      rw [mul_assoc, ← heq, mul_zero]
    cases n.negative <;> simp [hpos, hpos.le]

section

variable {q : ℚ} {z : Double}

theorem integral?_of_high (h : IsRounded q z) (hq : 2 ^ 63 - 512 ≤ q) : integral? z = none := by
  refine Option.eq_none_iff_forall_ne_some.mpr fun i hi => ?_
  have hrange : (i.toInt : ℚ) < 2 ^ 63 := by exact_mod_cast i.toInt_lt
  rw [← (integral?_eq_some_iff.mp hi).2, h.toRat_lt_iff] at hrange
  linarith

theorem integral?_of_low (h : IsRounded q z) (hq : q < -2 ^ 63 - 1024) : integral? z = none := by
  refine Option.eq_none_iff_forall_ne_some.mpr fun i hi => ?_
  have hrange : (-2 ^ 63 : ℚ) ≤ i.toInt := by exact_mod_cast i.le_toInt
  rw [← (integral?_eq_some_iff.mp hi).2, h.le_toRat_iff] at hrange
  linarith

theorem integral?_of_int {k : ℤ} (h : z.toRat = k) (hlow : -2 ^ 63 ≤ k) (hhigh : k < 2 ^ 63) :
    integral? z = some (.ofInt k) := by
  have hlow' : (-2 ^ 63 : ℚ) ≤ k := by exact_mod_cast hlow
  have hhigh' : (k : ℚ) < 2 ^ 63 := by exact_mod_cast hhigh
  refine integral?_eq_some_iff.mpr ⟨isFinite_of_abs_le ?_, ?_⟩
  · rw [h]
    exact abs_le.mpr ⟨hlow', hhigh'.le⟩
  · rw [h, Int64.toInt_ofInt_of_le hlow hhigh]

theorem integral?_of_least (h : IsRounded q z) (hlow : -2 ^ 63 - 1024 ≤ q) (hhigh : q ≤ -2 ^ 63) :
    integral? z = some (.ofInt (-2 ^ 63)) := by
  have hvalue : z.toRat = -2 ^ 63 := le_antisymm (h.toRat_le hhigh) (h.le_toRat_iff.mpr hlow)
  exact integral?_of_int (by rw [hvalue]; norm_num) le_rfl (by decide)

end

/-! ## Strings under `INT` -/

variable {s : String} {n : ℤ}

theorem coerce?_of_integerOfText? {i : Int64} (h : integerOfText? s = some i) :
    coerce? .int (.string s) = some (.integer i) := by
  simp [coerce?, toInteger?, h]

theorem coerce?_of_no_integer (h : integerOfText? s = none) :
    coerce? .int (.string s) = (toUnsigned? (.string s)).map .unsigned := by
  simp [coerce?, toInteger?, h]

/-! ## Digits with a sign -/

theorem exists_integerOfText?_of_digits (h : IntegerText s.toList n)
    (hrange : ¬ (-2 ^ 63 ≤ n ∧ n < 2 ^ 63)) :
    ∃ z, IsRounded n z ∧ integerOfText? s = integral? z := by
  obtain ⟨m, hread, hvalue⟩ := read?_value_of_readInt? h.readInt?
  have hsigned : signed? n = none := if_neg hrange
  refine ⟨nearest m, hvalue ▸ isRounded_nearest m, ?_⟩
  simp [integerOfText?, hread, h.readInt?, hsigned]

theorem toUnsigned?_of_digits (h : IntegerText s.toList n) (hpos : 0 < n) :
    toUnsigned? (.string s) = if n < 2 ^ 64 then some (.ofNat n.toNat) else none := by
  have hbound : n.toNat < 0x10000000000000000 ↔ n < 2 ^ 64 := by omega
  simp only [toUnsigned?, readUnsigned?_of_readInt? h.readInt? hpos, hbound]

theorem toUnsigned?_of_negative (h : IntegerText s.toList n) (hneg : n < 0) :
    toUnsigned? (.string s) = none := by
  have hread : readUnsigned? s.toList = none := by
    refine Option.eq_none_iff_forall_ne_some.mpr fun k hk => ?_
    have hint := readInt?_of_readUnsigned? hk
    rw [h.readInt?] at hint
    cases hint
    omega
  simp [toUnsigned?, hread]

/-- Under `INT` digits with a sign are the integer they denote, in the signed range and above it
to the end of the unsigned range, and are refused elsewhere, but for the integers down to the
midpoint below the signed range, which all are taken for the least of it. -/
theorem coerce_integer_text (h : IntegerText s.toList n) :
    coerce? .int (.string s) =
      if -2 ^ 63 ≤ n ∧ n < 2 ^ 63 then some (.integer (.ofInt n))
      else if 2 ^ 63 ≤ n ∧ n < 2 ^ 64 then some (.unsigned (.ofNat n.toNat))
      else if -2 ^ 63 - 1024 ≤ n ∧ n < -2 ^ 63 then some (.integer (.ofInt (-2 ^ 63)))
      else none := by
  split_ifs with hrange hhigh hlow
  · obtain ⟨m, hread, -⟩ := read?_value_of_readInt? h.readInt?
    have hsigned := signed?_of_range hrange.1 hrange.2
    apply coerce?_of_integerOfText?
    simp [integerOfText?, hread, h.readInt?, hsigned]
  · obtain ⟨z, hz, htext⟩ := exists_integerOfText?_of_digits h hrange
    rw [integral?_of_high hz (by exact_mod_cast (by omega : 2 ^ 63 - 512 ≤ n))] at htext
    rw [coerce?_of_no_integer htext, toUnsigned?_of_digits h (by omega), if_pos hhigh.2]
    rfl
  · obtain ⟨z, hz, htext⟩ := exists_integerOfText?_of_digits h hrange
    rw [coerce?_of_integerOfText? (htext.trans (integral?_of_least hz ?_ ?_))]
    · exact_mod_cast hlow.1
    · exact_mod_cast hlow.2.le
  · obtain ⟨z, hz, htext⟩ := exists_integerOfText?_of_digits h hrange
    rcases lt_or_ge n 0 with hneg | hnonneg
    · rw [integral?_of_low hz (by exact_mod_cast (by omega : n < -2 ^ 63 - 1024))] at htext
      rw [coerce?_of_no_integer htext, toUnsigned?_of_negative h hneg]
      rfl
    · rw [integral?_of_high hz (by exact_mod_cast (by omega : 2 ^ 63 - 512 ≤ n))] at htext
      rw [coerce?_of_no_integer htext, toUnsigned?_of_digits h (by omega), if_neg (by omega)]
      rfl

theorem coerce_integer_text_zeros :
    IntegerText "+0018446744073709551615".toList 18446744073709551615 ∧
      coerce? .int (.string "+0018446744073709551615") = some (.unsigned 18446744073709551615) := by
  have htext : IntegerText "+0018446744073709551615".toList 18446744073709551615 :=
    @IntegerText.intro ['+'] false
      [0, 0, 1, 8, 4, 4, 6, 7, 4, 4, 0, 7, 3, 7, 0, 9, 5, 5, 1, 6, 1, 5] .plus (by decide) (by simp)
  refine ⟨htext, (coerce_integer_text htext).trans ?_⟩
  rw [if_neg (by decide), if_pos (by decide)]
  rfl

/-- The first integer below the signed range becomes another one. -/
theorem least_integer_for_smaller :
    IntegerText "-9223372036854775809".toList (-9223372036854775809) ∧
      coerce? .int (.string "-9223372036854775809") =
        some (.integer (.ofInt (-9223372036854775808))) ∧
      (Int64.ofInt (-9223372036854775808)).toInt ≠ -9223372036854775809 := by
  have htext : IntegerText "-9223372036854775809".toList (-9223372036854775809) :=
    @IntegerText.intro ['-'] true [9, 2, 2, 3, 3, 7, 2, 0, 3, 6, 8, 5, 4, 7, 7, 5, 8, 0, 9] .minus
      (by decide) (by simp)
  exact ⟨htext, coerce?_of_integerOfText? (by decide +kernel), by decide⟩

/-! ## Numerals with a point or a power of ten -/

variable {q : ℚ}

theorem exists_coerce?_of_mark (h : NumeralText s.toList q) (hmark : ∃ c ∈ s.toList, IsMark c) :
    ∃ z, IsRounded q z ∧ coerce? .int (.string s) = (integral? z).map .integer := by
  obtain ⟨c, hmem, hc⟩ := hmark
  obtain ⟨n, hread, rfl⟩ := h.read?
  refine ⟨nearest n, isRounded_nearest n, ?_⟩
  have htext : integerOfText? s = integral? (nearest n) := by
    simp [integerOfText?, hread, readInt?_eq_none hc hmem]
  cases hvalue : integral? (nearest n) with
  | some i => exact coerce?_of_integerOfText? (htext.trans hvalue)
  | none =>
      rw [coerce?_of_no_integer (htext.trans hvalue)]
      simp [toUnsigned?, readUnsigned?_eq_none hc hmem]

theorem integral?_iff_isNearest {z : Double} {i : Int64} (h : IsRounded q z) :
    integral? z = some i ↔ ∃ x, IsNearest q x ∧ x.toRat = i.toInt := by
  rw [integral?_eq_some_iff]
  constructor
  · rintro ⟨hfinite, hvalue⟩
    exact ⟨z, h.isNearest hfinite, hvalue⟩
  · rintro ⟨x, hx, hvalue⟩
    have hlow : (-2 ^ 63 : ℚ) ≤ i.toInt := by exact_mod_cast i.le_toInt
    have hhigh : (i.toInt : ℚ) < 2 ^ 63 := by exact_mod_cast i.toInt_lt
    have hedge : x.magnitude ≤ edge := by
      rw [← value_le_edge_iff, ← abs_toRat, hvalue]
      exact abs_le.mpr ⟨hlow, hhigh.le⟩
    have hnext : x.magnitude + 1 < infiniteMagnitude :=
      Nat.lt_of_le_of_lt (Nat.succ_le_succ hedge) (by decide)
    obtain ⟨hfinite, heq⟩ := h.toRat_eq hx hnext
    exact ⟨hfinite, heq.trans hvalue⟩

/-- Under `INT` a numeral with a point or a power of ten is the nearest double, where that is an
integer in the signed range.  This is the number itself exactly if that is a double, as all
integers of at most fifty-three bits are.  Of the integers in range those from `2 ^ 63 - 512` on
are refused, since the double nearest to them is `2 ^ 63`. -/
theorem coerce_marked_text (h : NumeralText s.toList q) (hmark : ∃ c ∈ s.toList, IsMark c) :
    (∀ w, coerce? .int (.string s) = some w ↔
      ∃ x i, IsNearest q x ∧ x.toRat = Int64.toInt i ∧ w = .integer i) ∧
    (∀ i, coerce? .int (.string s) = some (.integer i) →
      (q = i.toInt ↔ ∃ x : Double, x.isFinite = true ∧ x.toRat = q)) ∧
    (∀ n : ℤ, q = n → n.natAbs ≤ 2 ^ 53 →
      coerce? .int (.string s) = some (.integer (.ofInt n))) ∧
    ∀ n : ℤ, q = n → -2 ^ 63 ≤ n → n < 2 ^ 63 →
      (accepts .int (.string s) = true ↔ n < 2 ^ 63 - 512) := by
  obtain ⟨z, hz, hcoerce⟩ := exists_coerce?_of_mark h hmark
  rw [accepts, hcoerce]
  refine ⟨fun w => ?_, fun i hi => ?_, ?_, ?_⟩
  · rw [Option.map_eq_some_iff]
    constructor
    · rintro ⟨i, hi, rfl⟩
      obtain ⟨x, hx, hvalue⟩ := (integral?_iff_isNearest hz).mp hi
      exact ⟨x, i, hx, hvalue, rfl⟩
    · rintro ⟨x, i, hx, hvalue, rfl⟩
      exact ⟨i, (integral?_iff_isNearest hz).mpr ⟨x, hx, hvalue⟩, rfl⟩
  · obtain ⟨j, hj, hij⟩ := Option.map_eq_some_iff.mp hi
    cases hij
    obtain ⟨x, hx, hvalue⟩ := (integral?_iff_isNearest hz).mp hj
    rw [← hvalue]
    exact hx.eq_iff
  · rintro n rfl hn
    rw [integral?_of_int (hz.toRat_of_small hn) (by omega) (by omega)]
    rfl
  · rintro n rfl hlow hhigh
    rw [Option.isSome_map]
    constructor
    · intro hsome
      by_contra hlarge
      rw [integral?_of_high hz (by exact_mod_cast not_lt.mp hlarge)] at hsome
      cases hsome
    · intro hlt
      obtain ⟨k, hk⟩ := hz.exists_int
      have hk' : (k : ℚ) < 2 ^ 63 := by
        rw [← hk, hz.toRat_lt_iff]
        exact_mod_cast hlt
      have hk'' : (-2 ^ 63 : ℚ) ≤ k := by
        rw [← hk, hz.le_toRat_iff]
        exact_mod_cast (by omega : -2 ^ 63 - 1024 ≤ n)
      rw [integral?_of_int hk (by exact_mod_cast hk'') (by exact_mod_cast hk')]
      rfl

theorem coerce_marked_text_negative :
    NumeralText "-1.25e+2".toList (-125) ∧ (∃ c ∈ "-1.25e+2".toList, IsMark c) ∧
      coerce? .int (.string "-1.25e+2") = some (.integer (.ofInt (-125))) := by
  have hpower : IntegerText ['+', '2'] 2 :=
    @IntegerText.intro ['+'] false [2] .plus (by decide) (by simp)
  have htext : NumeralText "-1.25e+2".toList (-125) := by
    have hparts := @NumeralText.intro ['-'] ['.', '2', '5'] ['e', '+', '2'] true [1] [2, 5] 2 .minus
      (by decide) (by simp) (@FractionText.pointed [2, 5]) (.marked (.inl rfl) hpower)
    have hvalue : ((if true then -1 else 1) * ofDigits ([1] ++ [2, 5]) *
        10 ^ ((2 : ℤ) - [2, 5].length) : ℚ) = -125 := by
      norm_num [ofDigits]
    rwa [hvalue] at hparts
  have hmark : ∃ c ∈ "-1.25e+2".toList, IsMark c := ⟨'.', by decide, .inl rfl⟩
  exact ⟨htext, hmark, (coerce_marked_text htext hmark).2.2.1 (-125) (by norm_num) (by decide)⟩

/-- A number with a half becomes the integer below it, and an integer in range is refused. -/
theorem fraction_for_integer :
    (NumeralText "9007199254740992.5".toList (9007199254740992 + 1 / 2) ∧
      coerce? .int (.string "9007199254740992.5") =
        some (.integer (.ofInt 9007199254740992))) ∧
    NumeralText "9223372036854775807.0".toList 9223372036854775807 ∧
      coerce? .int (.string "9223372036854775807.0") = none := by
  have hnone : toUnsigned? (.string "9223372036854775807.0") = none := by decide +kernel
  refine ⟨⟨?_, coerce?_of_integerOfText? (by decide +kernel)⟩, ?_, ?_⟩
  · have hparts := @NumeralText.intro [] ['.', '5'] [] false
      [9, 0, 0, 7, 1, 9, 9, 2, 5, 4, 7, 4, 0, 9, 9, 2] [5] 0 .missing (by decide) (by simp)
      (@FractionText.pointed [5]) .missing
    have hvalue : ((if false then -1 else 1) *
        ofDigits ([9, 0, 0, 7, 1, 9, 9, 2, 5, 4, 7, 4, 0, 9, 9, 2] ++ [5]) *
          10 ^ ((0 : ℤ) - [5].length) : ℚ) = 9007199254740992 + 1 / 2 := by
      norm_num [ofDigits]
    rwa [hvalue] at hparts
  · have hparts := @NumeralText.intro [] ['.', '0'] [] false
      [9, 2, 2, 3, 3, 7, 2, 0, 3, 6, 8, 5, 4, 7, 7, 5, 8, 0, 7] [0] 0 .missing (by decide) (by simp)
      (@FractionText.pointed [0]) .missing
    have hvalue : ((if false then -1 else 1) *
        ofDigits ([9, 2, 2, 3, 3, 7, 2, 0, 3, 6, 8, 5, 4, 7, 7, 5, 8, 0, 7] ++ [0]) *
          10 ^ ((0 : ℤ) - [0].length) : ℚ) = 9223372036854775807 := by
      norm_num [ofDigits]
    rwa [hvalue] at hparts
  · rw [coerce?_of_no_integer (by decide +kernel), hnone]
    rfl

end Coercion

end SchemaSieve
