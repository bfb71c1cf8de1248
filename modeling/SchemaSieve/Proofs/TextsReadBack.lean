import SchemaSieve.Proofs.PlainTexts

/-!
# Texts stand for what they were made from

What is taken for a double or for a phone number can be made into a text first, and the
text is taken for the same.  A double comes back bit by bit: away from zero it is the only
one that its digits are rounded to, and the texts of the two zeros differ in their sign.
-/

namespace SchemaSieve

namespace Double

variable {q : ℚ} {x y : Double}

theorem IsRounded.unique (hx : IsRounded q x) (hy : IsRounded q y) (hq : q ≠ 0) : x = y :=
  ext_magnitude ((hx.negative hq).trans (hy.negative hq).symm)
    (hx.magnitude.trans hy.magnitude.symm)

theorem IsRounded.magnitude_of_zero (hx : IsRounded 0 x) : x.magnitude = 0 := by
  rw [hx.magnitude, abs_zero]
  rfl

end Double

namespace Coercion

open Decimal Double

variable {x : Double}

/-! ## Doubles out of texts -/

theorem finite?_of_isFinite (hfinite : x.isFinite = true) : finite? x = some x :=
  if_pos hfinite

theorem toFloat?_of_numeralText {s : String} {q : ℚ} (h : NumeralText s.toList q)
    (hx : IsRounded q x) (hq : q ≠ 0) (hfinite : x.isFinite = true) :
    toFloat? (.string s) = some x := by
  obtain ⟨n, hread, rfl⟩ := h.read?
  simp only [toFloat?, hread]
  rw [(isRounded_nearest n).unique hx hq, finite?_of_isFinite hfinite]

theorem toFloat?_intText {i : ℤ} (hfinite : (ofInt i).isFinite = true) :
    toFloat? (.string (intText i)) = some (ofInt i) := by
  rcases eq_or_ne i 0 with rfl | hi
  · decide +kernel
  · refine toFloat?_of_numeralText ?_ (isRounded_ofInt i) (by exact_mod_cast hi) hfinite
    rw [intText, String.toList_ofList]
    exact (integerText_intChars i).numeralText

theorem toFloat?_natText {n : Nat} (hfinite : (ofNat n).isFinite = true) :
    toFloat? (.string (natText n)) = some (ofNat n) := by
  have htext : natText n = intText n := rfl
  rw [htext, ← ofInt_natCast]
  rw [← ofInt_natCast] at hfinite
  exact toFloat?_intText hfinite

theorem toFloat?_plainText (hfinite : x.isFinite = true) :
    toFloat? (.string x.plainText) = some x := by
  by_cases hzero : x.magnitude = 0
  · -- the digits of both zeros denote zero, but the reader keeps the sign
    have hx : x = zero x.negative := by
      rw [zero, ← hzero]
      exact eq_ofMagnitude x
    rw [hx]
    cases x.negative <;> decide +kernel
  · refine toFloat?_of_numeralText ?_ (isRounded_printed hfinite) ?_ hfinite
    · rw [plainText_of_isFinite hfinite]
      exact numeralText_chars x
    · intro hprinted
      have hx := isRounded_printed hfinite
      rw [hprinted] at hx
      exact hzero hx.magnitude_of_zero

/-! ## Values out of texts -/

variable {v w : Value}

theorem exists_text_of_float (h : coerce? .float v = some w) :
    ∃ t, coerce? .string v = some (.string t) ∧ coerce? .float (.string t) = some w := by
  obtain ⟨x, hx, rfl⟩ := Option.map_eq_some_iff.mp h
  unfold toFloat? at hx
  split at hx
  next i =>
    cases hx
    exact ⟨_, rfl, coerce?_float_of_toFloat? (toFloat?_intText (isFinite_ofInt64 i))⟩
  next u =>
    cases hx
    exact ⟨_, rfl, coerce?_float_of_toFloat? (toFloat?_natText (isFinite_ofUInt64 u))⟩
  next y =>
    have hfinite := isFinite_of_finite? hx
    rw [eq_of_finite? hx] at hfinite ⊢
    exact ⟨_, rfl, coerce?_float_of_toFloat? (toFloat?_plainText hfinite)⟩
  next s => exact ⟨s, rfl, h⟩
  · cases hx

theorem exists_text_of_phone (h : coerce? .phone v = some w) :
    ∃ t, coerce? .string v = some (.string t) ∧ coerce? .phone (.string t) = some w := by
  obtain ⟨s, hs, -⟩ := Option.map_eq_some_iff.mp h
  unfold Phone.toPhone? at hs
  split at hs
  next s => exact ⟨s, rfl, h⟩
  next i => exact ⟨_, rfl, h⟩
  · cases hs

/-- Every value that has a double or a phone number has a text, and from the text the very
same double or phone number is made. -/
theorem text_keeps_number {tag : ScalarTag} (htag : tag = .float ∨ tag = .phone)
    (h : coerce? tag v = some w) :
    ∃ t, coerce? .string v = some (.string t) ∧ coerce? tag (.string t) = some w := by
  rcases htag with rfl | rfl
  · exact exists_text_of_float h
  · exact exists_text_of_phone h

theorem text_keeps_number_least :
    coerce? .float (.float ⟨0x8000000000000001⟩) = some (.float ⟨0x8000000000000001⟩) ∧
      ∃ t, coerce? .string (.float ⟨0x8000000000000001⟩) = some (.string t) ∧
        coerce? .float (.string t) = some (.float ⟨0x8000000000000001⟩) := by
  have hfloat : coerce? .float (.float ⟨0x8000000000000001⟩) =
      some (.float ⟨0x8000000000000001⟩) := rfl
  exact ⟨hfloat, text_keeps_number (.inl rfl) hfloat⟩

end Coercion

end SchemaSieve
