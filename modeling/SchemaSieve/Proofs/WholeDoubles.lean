import Mathlib.Data.Rat.Floor
import SchemaSieve.Proofs.IntegersOfTexts

/-!
# Doubles that are integers

A double is taken for an integer exactly where its value is one of the signed range.
A conversion that cuts off fractions and stops at the ends of the range would give the
same integer there; everywhere else it would give another number, and the double is
refused.
-/

namespace SchemaSieve

namespace Double

/-! ## Converting whatever it costs -/

def truncated (x : Double) : ℤ := x.toRat.num.tdiv x.toRat.den

/-- The signed integer of any double: the fraction is cut off, what lies out of range is
taken to the nearer end of it, and what is no number to zero. -/
def saturated (x : Double) : Int64 :=
  if x.isNaN then 0
  else if x.isFinite then .ofInt (max (-2 ^ 63) (min (2 ^ 63 - 1) x.truncated))
  else if x.negative then .minValue
  else .maxValue

variable {x : Double} {n : ℤ}

theorem truncated_of_int (h : x.toRat = n) : x.truncated = n := by
  simp [truncated, h]

theorem saturated_of_int (hfinite : x.isFinite = true) (h : x.toRat = n) (hlow : -2 ^ 63 ≤ n)
    (hhigh : n < 2 ^ 63) : x.saturated = .ofInt n := by
  have hclamp : max (-2 ^ 63) (min (2 ^ 63 - 1) n) = n := by omega
  simp only [saturated, isNaN_of_isFinite hfinite, hfinite, truncated_of_int h, hclamp,
    Bool.false_eq_true, if_false, if_true]

end Double

namespace Coercion

open Double

variable {x : Double} {n : ℤ} {i : Int64}

theorem coerce?_int_float (x : Double) :
    coerce? .int (.float x) = (integral? x).map Value.integer := by
  simp only [coerce?, toInteger?, toUnsigned?]
  cases integral? x <;> rfl

theorem coerce?_of_integral? (h : integral? x = some i) :
    coerce? .int (.float x) = some (.integer i) := by
  rw [coerce?_int_float, h]
  rfl

/-- The double is finite and its value is this integer of the signed range. -/
structure IsSignedInteger (x : Double) (n : ℤ) : Prop where
  finite : x.isFinite = true
  value : x.toRat = n
  low : -2 ^ 63 ≤ n
  high : n < 2 ^ 63

theorem coerce?_of_isSignedInteger (h : IsSignedInteger x n) :
    coerce? .int (.float x) = some (.integer (.ofInt n)) :=
  coerce?_of_integral? (integral?_of_int h.value h.low h.high)

theorem isSignedInteger_of_coerce? (h : coerce? .int (.float x) = some (.integer i)) :
    IsSignedInteger x i.toInt := by
  rw [coerce?_int_float, Option.map_eq_some_iff] at h
  obtain ⟨j, hj, hij⟩ := h
  cases hij
  obtain ⟨hfinite, hvalue⟩ := integral?_eq_some_iff.mp hj
  exact ⟨hfinite, hvalue, i.le_toInt, i.toInt_lt⟩

theorem coerce?_int_float_eq_none_iff :
    coerce? .int (.float x) = none ↔ ¬ ∃ n, IsSignedInteger x n := by
  constructor
  · rintro hnone ⟨n, hn⟩
    rw [coerce?_of_isSignedInteger hn] at hnone
    cases hnone
  · intro hnot
    rw [coerce?_int_float, Option.map_eq_none_iff]
    refine Option.eq_none_iff_forall_ne_some.mpr fun i hi => hnot ⟨i.toInt, ?_⟩
    exact isSignedInteger_of_coerce? (coerce?_of_integral? hi)

theorem exists_isSignedInteger_iff : (∃ n, IsSignedInteger x n) ↔
    x.isFinite = true ∧ Int.fract x.toRat = 0 ∧ -2 ^ 63 ≤ x.toRat ∧ x.toRat < 2 ^ 63 := by
  constructor
  · rintro ⟨n, hfinite, hvalue, hlow, hhigh⟩
    rw [hvalue]
    exact ⟨hfinite, Int.fract_intCast n, by exact_mod_cast hlow, by exact_mod_cast hhigh⟩
  · rintro ⟨hfinite, hfract, hlow, hhigh⟩
    obtain ⟨n, hn⟩ := Int.fract_eq_zero_iff.mp hfract
    rw [← hn] at hlow hhigh
    exact ⟨n, hfinite, hn.symm, by exact_mod_cast hlow, by exact_mod_cast hhigh⟩

/-- Under `INT` a double, whatever its word, is the integer that it is if that lies in the
signed range, and is refused otherwise.  It passes exactly by the four tests, and then the
conversion that cuts off and stops at the ends has done neither. -/
theorem coerce_double (x : Double) :
    (∀ n : ℤ, (∃ i : Int64, coerce? .int (.float x) = some (.integer i) ∧ i.toInt = n) ↔
      IsSignedInteger x n) ∧
    (coerce? .int (.float x) = none ↔ ¬ ∃ n : ℤ, IsSignedInteger x n) ∧
    coerce? .int (.float x) =
      if x.isFinite = true ∧ Int.fract x.toRat = 0 ∧ -2 ^ 63 ≤ x.toRat ∧ x.toRat < 2 ^ 63 then
        some (.integer x.saturated)
      else none := by
  refine ⟨fun n => ?_, coerce?_int_float_eq_none_iff, ?_⟩
  · constructor
    · rintro ⟨i, hi, rfl⟩
      exact isSignedInteger_of_coerce? hi
    · intro h
      exact ⟨.ofInt n, coerce?_of_isSignedInteger h, Int64.toInt_ofInt_of_le h.low h.high⟩
  · split
    next htests =>
      obtain ⟨n, h⟩ := exists_isSignedInteger_iff.mpr htests
      rw [coerce?_of_isSignedInteger h, saturated_of_int h.finite h.value h.low h.high]
    next htests =>
      exact coerce?_int_float_eq_none_iff.mpr fun h => htests (exists_isSignedInteger_iff.mp h)

example : coerce? .int (.float ⟨0x43E0000000000000⟩) = none ∧
    coerce? .int (.float ⟨0xC3E0000000000000⟩) = some (.integer (-9223372036854775808)) ∧
    coerce? .int (.float ⟨0x43DFFFFFFFFFFFFF⟩) = some (.integer 9223372036854774784) := by
  refine ⟨?_, coerce?_of_integral? (by decide +kernel), coerce?_of_integral? (by decide +kernel)⟩
  rw [coerce?_int_float, show integral? ⟨0x43E0000000000000⟩ = none by decide +kernel]
  rfl

end Coercion

end SchemaSieve
