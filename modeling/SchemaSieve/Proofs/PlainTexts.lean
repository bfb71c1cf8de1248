import SchemaSieve.Proofs.FloatLiterals
import SchemaSieve.Proofs.IntegersAsFloats

/-!
# Plain texts are numerals

The decimal text of an integer denotes it.  The plain text of a finite double is a
numeral without a power of ten that denotes its shortest digits, so the double is what
the text is rounded to.  Where the double is an integer the digits have no fraction, and
the text has no point.
-/

namespace SchemaSieve

namespace Decimal

/-! ## Integers -/

theorem integerText_intChars (i : ℤ) : IntegerText (intChars i) i := by
  have hnat : ∀ n, (∀ d ∈ digits n, d < 10) ∧ digits n ≠ [] :=
    fun n => ⟨digits_lt n, digits_ne_nil n⟩
  cases i with
  | ofNat n =>
      have htext := IntegerText.intro .missing (hnat n).1 (hnat n).2
      rwa [ofDigits_digits] at htext
  | negSucc n =>
      have htext := IntegerText.intro .minus (hnat (n + 1)).1 (hnat (n + 1)).2
      rwa [ofDigits_digits] at htext

variable {cs sign : List Char} {negative : Bool} {n : ℤ}

theorem IntegerText.numeralText (h : IntegerText cs n) : NumeralText cs n := by
  obtain @⟨sign, negative, ds, signed, digits, nonempty⟩ := h
  have htext := @NumeralText.intro sign [] [] negative ds [] 0 signed (by simpa using digits)
    (by simpa using nonempty) .missing .missing
  have hvalue : ((if negative then -1 else 1) * ofDigits (ds ++ []) *
      10 ^ ((0 : ℤ) - ([] : List Nat).length) : ℚ) =
        (if negative then -(ofDigits ds : ℤ) else ofDigits ds : ℤ) := by
    cases negative <;> simp
  rw [hvalue] at htext
  simpa using htext

end Decimal

namespace Double

open Decimal

/-! ## Digits with a fraction -/

variable {d : Digits} {cs sign : List Char} {negative : Bool}

theorem Pointed.numeralText (h : Pointed d cs) (signed : SignText sign negative) :
    NumeralText (sign ++ cs) ((if negative then -1 else 1) * d.value) := by
  obtain ⟨whole, frac, rfl, hwhole, hne, hfrac, hliteral⟩ := h
  have hdigits : ∀ y ∈ whole ++ frac, y < 10 := List.forall_mem_append.mpr ⟨hwhole.1, hfrac⟩
  have htext := @NumeralText.intro sign ('.' :: frac.map digitChar) [] negative whole frac 0 signed
    hdigits (by simp [hne]) .pointed .missing
  rw [← d.cast_literal, ← hliteral, ← mul_assoc, ← ofDigits_append]
  simpa using htext

/-! ## Digits without a fraction -/

def Digits.whole (d : Digits) : List Nat :=
  d.digits ++ List.replicate ((d.exponent + 1).toNat - d.digits.length) 0

theorem cast_ofDigits_whole (h : (d.digits.length : ℤ) ≤ d.exponent + 1) :
    (ofDigits d.whole : ℚ) = d.value := by
  have hexp : d.exponent - d.digits.length + 1 =
      ((d.exponent + 1).toNat - d.digits.length : Nat) := by omega
  rw [Digits.whole, ofDigits_append, ofDigits_replicate_zero, List.length_replicate, Digits.value,
    hexp, zpow_natCast]
  push_cast
  ring

theorem place_of_whole (hne : d.digits ≠ []) (h : (d.digits.length : ℤ) ≤ d.exponent + 1) :
    plainLayout.place d = d.whole.map digitChar := by
  have hpos := List.length_pos_iff.mpr hne
  have hdrop : d.digits.drop (d.exponent + 1).toNat = [] := List.drop_eq_nil_of_le (by omega)
  have htake : d.digits.take (d.exponent + 1).toNat = d.digits :=
    List.take_of_length_le (by omega)
  rw [Layout.place, if_neg (by omega)]
  simp only [hdrop, htake, Digits.whole, List.map_append, List.map_replicate]
  exact List.append_nil _

theorem pointed_place_plain (h : d.Regular) (hfraction : d.exponent + 1 < d.digits.length) :
    Pointed d (plainLayout.place d) := by
  unfold Layout.place
  split
  next hneg => exact pointed_of_small h hneg
  next hnonneg =>
    simp only
    split
    next hnil =>
      have hle := List.drop_eq_nil_iff.mp hnil
      omega
    · have hnone : (d.exponent + 1).toNat - d.digits.length = 0 := by omega
      simp only [hnone, List.replicate_zero, List.append_nil]
      exact pointed_of_mixed h (by omega) hfraction

/-! ## Doubles -/

variable {x : Double}

/-- The number that the shortest digits of a double denote, with its sign. -/
def printed (x : Double) : ℚ := (if x.negative then -1 else 1) * (x.shortest .up).value

theorem Layout.exists_sign_chars (l : Layout) (x : Double) : ∃ sign, SignText sign x.negative ∧
    l.chars x = sign ++ if l.positional (x.shortest l.tie).exponent then
      l.place (x.shortest l.tie) else (x.shortest l.tie).scientific := by
  cases hsign : x.negative with
  | false => exact ⟨[], .missing, by rw [Layout.chars, hsign]; rfl⟩
  | true => exact ⟨['-'], .minus, by rw [Layout.chars, hsign]; rfl⟩

theorem exists_sign_chars (x : Double) : ∃ sign, SignText sign x.negative ∧
    plainLayout.chars x = sign ++ plainLayout.place (x.shortest .up) :=
  plainLayout.exists_sign_chars x

theorem digits_shortest (x : Double) :
    (∀ y ∈ (x.shortest .up).digits, y < 10) ∧ (x.shortest .up).digits ≠ [] := by
  by_cases hzero : x.magnitude = 0
  · rw [shortest_of_isZero .up hzero]
    exact ⟨by simp, by simp⟩
  · have hregular := (roundsTo_shortest .up hzero).1
    obtain ⟨y, ys, hys, -⟩ := hregular.head
    exact ⟨hregular.lt, by simp [hys]⟩

theorem integerText_chars
    (h : ((x.shortest .up).digits.length : ℤ) ≤ (x.shortest .up).exponent + 1) :
    ∃ n : ℤ, IntegerText (plainLayout.chars x) n ∧ n = x.printed := by
  obtain ⟨sign, hsign, hchars⟩ := exists_sign_chars x
  obtain ⟨hdigits, hne⟩ := digits_shortest x
  have hwhole : ∀ y ∈ (x.shortest .up).whole, y < 10 := by
    intro y hy
    rcases List.mem_append.mp hy with hy | hy
    · exact hdigits y hy
    · rw [List.eq_of_mem_replicate hy]
      decide
  rw [hchars, place_of_whole hne h]
  refine ⟨_, .intro hsign hwhole (by simp [Digits.whole, hne]), ?_⟩
  rw [printed, ← cast_ofDigits_whole h]
  cases x.negative <;> simp

theorem numeralText_chars (x : Double) : NumeralText (plainLayout.chars x) x.printed := by
  rcases le_or_gt ((x.shortest .up).digits.length : ℤ) ((x.shortest .up).exponent + 1)
    with hwhole | hfraction
  · obtain ⟨n, htext, hn⟩ := integerText_chars hwhole
    exact hn ▸ htext.numeralText
  · have hzero : x.magnitude ≠ 0 := by
      intro hzero
      rw [shortest_of_isZero .up hzero] at hfraction
      exact absurd hfraction (by decide)
    obtain ⟨sign, hsign, hchars⟩ := exists_sign_chars x
    rw [hchars]
    exact (pointed_place_plain (roundsTo_shortest .up hzero).1 hfraction).numeralText hsign

theorem plainText_of_isFinite (hfinite : x.isFinite = true) :
    x.plainText.toList = plainLayout.chars x := by
  simp [plainText, isNaN_of_isFinite hfinite, hfinite]

theorem isRounded_printed (hfinite : x.isFinite = true) : IsRounded x.printed x := by
  rw [isFinite_iff] at hfinite
  by_cases hzero : x.magnitude = 0
  · have hvalue : x.printed = 0 := by
      rw [printed, shortest_of_isZero .up hzero]
      simp [Digits.value, ofDigits]
    rw [hvalue]
    exact ⟨by rw [hzero, abs_zero]; rfl, fun hne => absurd rfl hne⟩
  · obtain ⟨hregular, hround⟩ := roundsTo_shortest .up hzero
    have hpos : 0 < (x.shortest .up).value := by
      have hdigits : (0 : ℚ) < ofDigits (x.shortest .up).digits := by
        exact_mod_cast hregular.ofDigits_pos
      rw [Digits.value]
      positivity
    have hnearest := nearest_eq_of_roundsTo hpos.le hfinite hround
    rw [printed]
    constructor
    · cases x.negative <;> simp [abs_of_pos hpos, hnearest]
    · intro _
      cases x.negative <;> simp [hpos, hpos.le]

/-! ## Whole doubles -/

theorem exists_onGrid_of_value {p : ℤ} {l c : Nat} (tie : Tie) (hx : x.magnitude = l + 1)
    (hc : value (l + 1) = c * 10 ^ p) : ∃ d, onGrid tie x p = some d := by
  obtain ⟨c', hlow, hhigh, -, hnone⟩ := onGrid_spec tie (p := p) hx
  have hunit : (0 : ℚ) < 10 ^ p := by positivity
  rw [hc] at hlow hhigh
  have hle : c' ≤ c := by exact_mod_cast le_of_mul_le_mul_right hlow hunit
  have hlt : c < c' + 1 := by exact_mod_cast lt_of_mul_lt_mul_right hhigh hunit.le
  cases h : onGrid tie x p with
  | some d => exact ⟨d, rfl⟩
  | none =>
      have hround := roundsTo_value (l + 1)
      rw [hc, show c = c' by omega] at hround
      exact absurd hround (hnone h).1

theorem length_trimZeros_le {ds : List Nat} (h : ds ≠ []) :
    (trimZeros ds).length ≤ ds.length := by
  unfold trimZeros
  split
  · exact List.length_pos_iff.mpr h
  · calc (ds.reverse.dropWhile (· = 0)).reverse.length
        = (ds.reverse.dropWhile (· = 0)).length := List.length_reverse
      _ ≤ ds.reverse.length := List.length_dropWhile_le ..
      _ = ds.length := List.length_reverse

/-- The search for the digits of an integer ends before grids finer than the integers, so
the digits have no fraction. -/
theorem length_shortest_le {n : Nat} (tie : Tie) (hx : value x.magnitude = n) :
    ((x.shortest tie).digits.length : ℤ) ≤ (x.shortest tie).exponent + 1 := by
  rcases Nat.eq_zero_or_pos x.magnitude with hzero | hpos
  · rw [shortest_of_isZero tie hzero]
    decide
  · obtain ⟨l, hl⟩ : ∃ l, x.magnitude = l + 1 := ⟨x.magnitude - 1, by omega⟩
    obtain ⟨s, -, hlog, k, -, hgrid, hbefore⟩ := exists_grid_shortest tie hl
    have hvalue := value_pos hpos.ne'
    rw [hl] at hx hvalue
    have hone : (1 : ℚ) ≤ value (l + 1) := by
      rw [hx] at hvalue ⊢
      exact_mod_cast hvalue
    have hs : 0 < s + 1 := by
      rw [← zpow_lt_zpow_iff_right₀ (show (1 : ℚ) < 10 by norm_num), zpow_zero]
      exact hone.trans_lt hlog
    have hp : 0 ≤ s - k := by
      by_contra hneg
      have hnone := hbefore s.toNat (by omega)
      rw [show s - (s.toNat : ℤ) = 0 by omega] at hnone
      obtain ⟨d, hd⟩ := exists_onGrid_of_value tie hl
        (by rw [hx, zpow_zero, mul_one] : value (l + 1) = n * 10 ^ (0 : ℤ))
      rw [hnone] at hd
      cases hd
    obtain ⟨c, -, -, hsome, -⟩ := onGrid_spec tie (p := s - k) hl
    obtain ⟨e, -, -, hdigits⟩ := hsome _ hgrid
    have hlength := length_trimZeros_le (digits_ne_nil e)
    rw [hdigits, Digits.ofScaled]
    simp only
    omega

end Double

end SchemaSieve
