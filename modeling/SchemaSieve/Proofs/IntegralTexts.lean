import SchemaSieve.Proofs.PlainTexts

/-!
# Integers read from their texts

The decimal text of an integer gives the integer back.  The text of a double that is an
integer has its shortest digits and then zeros, so what it denotes is an integer with
the same nearest double, but not always the same integer: below `2 ^ 53` it is, and
farther out the digits often end before the places of the double do.  Only for `-2 ^ 63`
the digits leave the signed range, and then the nearest double decides.
-/

namespace SchemaSieve

namespace Double

variable {x : Double} {n i : ℤ}

/-! ## Integers with one nearest double -/

theorem eq_least_of_lt (hround : IsRounded n x) (hvalue : x.toRat = i) (hlow : -2 ^ 63 ≤ i)
    (hn : n < -2 ^ 63) : i = -2 ^ 63 := by
  have hle : x.toRat ≤ -2 ^ 63 := hround.toRat_le (by exact_mod_cast hn.le)
  rw [hvalue] at hle
  exact le_antisymm (by exact_mod_cast hle) hlow

theorem isRounded_max (hfinite : x.isFinite = true) (hround : IsRounded n x)
    (hvalue : x.toRat = i) (hlow : -2 ^ 63 ≤ i) : IsRounded (max n (-2 ^ 63) : ℤ) x := by
  rcases le_or_gt (-2 ^ 63) n with hn | hn
  · rwa [max_eq_left hn]
  · rw [max_eq_right hn.le, ← eq_least_of_lt hround hvalue hlow hn, ← hvalue]
    exact isRounded_toRat hfinite

theorem max_eq_iff_of_isRounded (hround : IsRounded n x) (hvalue : x.toRat = i)
    (hlow : -2 ^ 63 ≤ i) : max n (-2 ^ 63) = i ↔ n = i ∨ n < -2 ^ 63 := by
  rcases le_or_gt (-2 ^ 63) n with hn | hn
  · rw [max_eq_left hn, or_iff_left (not_lt.mpr hn)]
  · rw [max_eq_right hn.le]
    exact iff_of_true (eq_least_of_lt hround hvalue hlow hn).symm (.inr hn)

theorem eq_of_small (hround : IsRounded n x) (hvalue : x.toRat = i) (hi : i.natAbs < 2 ^ 53) :
    n = i := by
  have hn : n.natAbs ≤ 2 ^ 53 := by
    by_contra hlarge
    have hle : ((2 ^ 53 : Nat) : ℚ) ≤ |(n : ℚ)| := by
      rw [← Int.cast_abs, Int.abs_eq_natAbs, Int.cast_natCast]
      exact_mod_cast (not_le.mp hlarge).le
    have hmono := value_strictMono.monotone (nearest_mono (Nat.cast_nonneg _) hle)
    rw [← hround.magnitude, ← abs_toRat, hvalue, ← magnitude_ofNat,
      value_ofNat_of_small le_rfl, ← Int.cast_abs, Int.abs_eq_natAbs, Int.cast_natCast] at hmono
    exact absurd hi (not_lt.mpr (by exact_mod_cast hmono))
  have heq : (n : ℚ) = i := (hround.toRat_of_small hn).symm.trans hvalue
  exact_mod_cast heq

theorem exists_integerText (hfinite : x.isFinite = true) (hvalue : x.toRat = i) :
    ∃ n : ℤ, IsRounded n x ∧ Decimal.IntegerText x.plainText.toList n := by
  have hwhole : value x.magnitude = i.natAbs := by
    rw [← abs_toRat, hvalue, Nat.cast_natAbs, Int.cast_abs]
  obtain ⟨n, htext, hn⟩ := integerText_chars (length_shortest_le .up hwhole)
  refine ⟨n, hn ▸ isRounded_printed hfinite, ?_⟩
  rwa [plainText_of_isFinite hfinite]

end Double

namespace Coercion

open Decimal Double

/-! ## Digits under `INT` -/

variable {s : String} {n : ℤ}

theorem coerce?_of_digits (h : IntegerText s.toList n) (hlow : -2 ^ 63 ≤ n) (hhigh : n < 2 ^ 63) :
    coerce? .int (.string s) = some (.integer (.ofInt n)) := by
  obtain ⟨m, hread, -⟩ := read?_value_of_readInt? h.readInt?
  have hsigned := signed?_of_range hlow hhigh
  apply coerce?_of_integerOfText?
  simp [integerOfText?, hread, h.readInt?, hsigned]

theorem coerce?_of_digits_below (h : IntegerText s.toList n) (hlow : -2 ^ 63 - 1024 ≤ n)
    (hhigh : n < -2 ^ 63) : coerce? .int (.string s) = some (.integer (.ofInt (-2 ^ 63))) := by
  obtain ⟨z, hz, htext⟩ := exists_integerOfText?_of_digits h (by omega)
  refine coerce?_of_integerOfText? (htext.trans (integral?_of_least hz ?_ ?_))
  · exact_mod_cast hlow
  · exact_mod_cast hhigh.le

theorem coerce?_of_digits_above (h : IntegerText s.toList n) (hlow : 2 ^ 63 ≤ n)
    (hhigh : n < 2 ^ 64) : coerce? .int (.string s) = some (.unsigned (.ofNat n.toNat)) := by
  obtain ⟨z, hz, htext⟩ := exists_integerOfText?_of_digits h (by omega)
  rw [integral?_of_high hz (by exact_mod_cast (by omega : 2 ^ 63 - 512 ≤ n))] at htext
  rw [coerce?_of_no_integer htext, toUnsigned?_of_digits h (by omega), if_pos hhigh]
  rfl

theorem coerce?_intText (i : Int64) :
    coerce? .int (.string (intText i.toInt)) = some (.integer i) := by
  have htext : IntegerText (intText i.toInt).toList i.toInt := by
    rw [intText, String.toList_ofList]
    exact integerText_intChars _
  rw [coerce?_of_digits htext i.le_toInt i.toInt_lt, Int64.ofInt_toInt]

theorem coerce?_natText {u : UInt64} (hlarge : 2 ^ 63 ≤ u.toNat) :
    coerce? .int (.string (natText u.toNat)) = some (.unsigned u) := by
  have htext : IntegerText (natText u.toNat).toList u.toNat := by
    rw [natText, String.toList_ofList]
    exact integerText_intChars u.toNat
  have hlt := u.toNat_lt
  rw [coerce?_of_digits_above htext (by omega) (by omega), Int.toNat_natCast, UInt64.ofNat_toNat]

/-! ## The text of a whole double -/

theorem coerce?_plainText {x : Double} {i : ℤ} (hvalue : x.toRat = i) (hlow : -2 ^ 63 ≤ i)
    (hhigh : i < 2 ^ 63) (hround : IsRounded n x) (htext : IntegerText x.plainText.toList n) :
    max n (-2 ^ 63) < 2 ^ 63 ∧ coerce? .int (.string x.plainText) =
      some (.integer (.ofInt (max n (-2 ^ 63)))) := by
  have hlow' : -2 ^ 63 - 1024 ≤ n := by
    have hle := hround.le_toRat_iff.mp (by rw [hvalue]; exact_mod_cast hlow)
    exact_mod_cast hle
  have hhigh' : n < 2 ^ 63 - 512 := by
    have hlt := hround.toRat_lt_iff.mp (by rw [hvalue]; exact_mod_cast hhigh)
    exact_mod_cast hlt
  refine ⟨by omega, ?_⟩
  rcases le_or_gt (-2 ^ 63) n with hn | hn
  · rw [max_eq_left hn, coerce?_of_digits htext hn (by omega)]
  · rw [max_eq_right hn.le, coerce?_of_digits_below htext hlow' hn]

theorem ofInt_eq_iff {m : ℤ} {i : Int64} (hlow : -2 ^ 63 ≤ m) (hhigh : m < 2 ^ 63) :
    Int64.ofInt m = i ↔ m = i.toInt := by
  rw [← Int64.toInt_inj, Int64.toInt_ofInt_of_le hlow hhigh]

theorem exists_integer_of_plainText {x : Double} {i : Int64} (h : integral? x = some i) :
    ∃ n : ℤ, IntegerText x.plainText.toList n ∧
      coerce? .int (.string x.plainText) = some (.integer (.ofInt (max n (-2 ^ 63)))) ∧
      x.equal (ofInt (max n (-2 ^ 63))) = true ∧
      (coerce? .int (.string x.plainText) = some (.integer i) ↔ n = i.toInt ∨ n < -2 ^ 63) ∧
      (i.toInt.natAbs < 2 ^ 53 → n = i.toInt) := by
  obtain ⟨hfinite, hvalue⟩ := integral?_eq_some_iff.mp h
  obtain ⟨n, hround, htext⟩ := exists_integerText hfinite hvalue
  obtain ⟨hrange, hcoerce⟩ := coerce?_plainText hvalue i.le_toInt i.toInt_lt hround htext
  have hmax := isRounded_max hfinite hround hvalue i.le_toInt
  refine ⟨n, htext, hcoerce, ?_, ?_, eq_of_small hround hvalue⟩
  · exact equal_of_toRat_eq hfinite (hmax.toRat_unique (isRounded_ofInt _))
  · rw [hcoerce, Option.some.injEq, Value.integer.injEq, ofInt_eq_iff (le_max_right ..) hrange]
    exact max_eq_iff_of_isRounded hround hvalue i.le_toInt

/-- The text of an integer, and a text that is taken for an integer, give the same integer
again.  The text of a double that is an integer gives an integer with the same nearest
double: the one that its digits denote, or the least where these lie below the signed range.
So it gives the same integer exactly if the digits denote it, as they do below `2 ^ 53`, or
lie below the range. -/
theorem integer_of_text {v w : Value} (h : coerce? .int v = some w)
    (hlarge : ∀ u, w = .unsigned u → 2 ^ 63 ≤ u.toNat) :
    ∃ t, coerce? .string v = some (.string t) ∧
      ((∀ x, v ≠ .float x) → coerce? .int (.string t) = some w) ∧
      ∀ x, v = .float x → ∃ (i : Int64) (n : ℤ), w = .integer i ∧ IntegerText t.toList n ∧
        coerce? .int (.string t) = some (.integer (.ofInt (max n (-2 ^ 63)))) ∧
        x.equal (ofInt (max n (-2 ^ 63))) = true ∧
        (coerce? .int (.string t) = some w ↔ n = i.toInt ∨ n < -2 ^ 63) ∧
        (i.toInt.natAbs < 2 ^ 53 → n = i.toInt) := by
  cases integerForm_of_coerce? h with
  | integer i => exact ⟨_, rfl, fun _ => coerce?_intText i, nofun⟩
  | unsigned u => exact ⟨_, rfl, fun _ => coerce?_natText (hlarge u rfl), nofun⟩
  | @double x i whole =>
      refine ⟨_, rfl, fun hx => absurd rfl (hx x), ?_⟩
      rintro _ ⟨⟩
      obtain ⟨n, hn⟩ := exists_integer_of_plainText whole
      exact ⟨i, n, rfl, hn⟩
  | digits read => exact ⟨_, rfl, fun _ => h, nofun⟩
  | rounded read whole => exact ⟨_, rfl, fun _ => h, nofun⟩
  | unsignedDigits read => exact ⟨_, rfl, fun _ => h, nofun⟩

theorem integer_of_text_large :
    (coerce? .int (.unsigned 18446744073709551615) = some (.unsigned 18446744073709551615) ∧
      ∃ t, coerce? .string (.unsigned 18446744073709551615) = some (.string t) ∧
        coerce? .int (.string t) = some (.unsigned 18446744073709551615)) ∧
    coerce? .int (.float ⟨0x4380000000000000⟩) = some (.integer 144115188075855872) ∧
      ∃ t n, coerce? .string (.float ⟨0x4380000000000000⟩) = some (.string t) ∧
        IntegerText t.toList n ∧
        coerce? .int (.string t) = some (.integer (.ofInt (max n (-2 ^ 63)))) := by
  have hunsigned : coerce? .int (.unsigned 18446744073709551615) =
      some (.unsigned 18446744073709551615) := rfl
  have hfloat : coerce? .int (.float ⟨0x4380000000000000⟩) =
      some (.integer 144115188075855872) :=
    coerce?_of_integral? (by decide +kernel)
  have hlarge : ∀ u, Value.unsigned 18446744073709551615 = .unsigned u → 2 ^ 63 ≤ u.toNat := by
    intro u hu
    cases hu
    decide
  have hother : ∀ u, Value.integer 144115188075855872 = .unsigned u → 2 ^ 63 ≤ u.toNat := by
    intro u hu
    cases hu
  obtain ⟨t, ht, hagain, -⟩ := integer_of_text hunsigned hlarge
  obtain ⟨t', ht', -, hwhole⟩ := integer_of_text hfloat hother
  obtain ⟨-, n, -, htext, hcoerce, -⟩ := hwhole _ rfl
  refine ⟨⟨hunsigned, t, ht, hagain fun x hx => ?_⟩, hfloat, t', n, ht', htext, hcoerce⟩
  cases hx

/-- The digits of `2 ^ 57` stop one place before its units, and the text gives another
integer. -/
theorem other_integer_of_text :
    coerce? .int (.float ⟨0x4380000000000000⟩) = some (.integer 144115188075855872) ∧
      coerce? .string (.float ⟨0x4380000000000000⟩) = some (.string "144115188075855870") ∧
      coerce? .int (.string "144115188075855870") = some (.integer 144115188075855870) ∧
      (144115188075855870 : Int64) ≠ 144115188075855872 := by
  have htext : Double.plainText ⟨0x4380000000000000⟩ = "144115188075855870" := by decide +kernel
  refine ⟨coerce?_of_integral? (by decide +kernel), ?_,
    coerce?_of_integerOfText? (by decide +kernel), by decide⟩
  rw [coerce?, toText?, htext]
  rfl

end Coercion

end SchemaSieve
