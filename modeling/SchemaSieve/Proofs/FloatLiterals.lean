import SchemaSieve.Double.Text
import SchemaSieve.Proofs.Literals
import SchemaSieve.Proofs.Shortest

/-!
# Digits of doubles as literals

In each layout the digits of a double are read as one integer and one power of ten,
whose product is the number the digits denote.  A double without fraction is written
with a point and a zero, and that zero is read as one more digit.
-/

namespace SchemaSieve.Double

open Decimal Json Json.Reader

/-- The integer and the power of ten that the digits in a document are read as. -/
def Digits.literal (d : Digits) : Nat × ℤ :=
  if d.exponent < 16 ∧ (d.digits.length : ℤ) ≤ d.exponent + 1 then
    (ofDigits d.digits * 10 ^ (d.exponent + 2 - d.digits.length).toNat, -1)
  else (ofDigits d.digits, d.exponent - d.digits.length + 1)

theorem Digits.cast_literal (d : Digits) : (d.literal.1 * 10 ^ d.literal.2 : ℚ) = d.value := by
  unfold literal value
  split
  · rename_i h
    push_cast
    rw [mul_assoc, ← zpow_natCast, ← zpow_add₀ (by norm_num)]
    congr 2
    omega
  · rfl

theorem Digits.Regular.ofDigits_pos {d : Digits} (h : d.Regular) : 0 < ofDigits d.digits := by
  obtain ⟨y, ys, hys, hy⟩ := h.head
  have hcons := mul_pow_add_ofDigits_cons 0 y ys
  rw [Nat.zero_mul, Nat.zero_add, Nat.zero_mul, Nat.zero_add] at hcons
  have hle := le_mul_pow_add y ys.length (ofDigits ys)
  rw [hys]
  omega

theorem Digits.Regular.literal_lt {d : Digits} (h : d.Regular) :
    0 < d.literal.1 ∧ d.literal.1 < 10 ^ 17 := by
  have hpos := h.ofDigits_pos
  have hlt := ofDigits_lt h.lt
  unfold literal
  split
  · rename_i hwhole
    have hten : 0 < 10 ^ (d.exponent + 2 - d.digits.length).toNat := Nat.pow_pos (by decide)
    refine ⟨Nat.mul_pos hpos hten, ?_⟩
    calc ofDigits d.digits * 10 ^ (d.exponent + 2 - d.digits.length).toNat
        < 10 ^ d.digits.length * 10 ^ (d.exponent + 2 - d.digits.length).toNat :=
          Nat.mul_lt_mul_of_pos_right hlt hten
      _ = 10 ^ (d.digits.length + (d.exponent + 2 - d.digits.length).toNat) :=
          (Nat.pow_add ..).symm
      _ ≤ 10 ^ 17 := Nat.pow_le_pow_right (by decide) (by omega)
  · exact ⟨hpos, hlt.trans_le (Nat.pow_le_pow_right (by decide) h.length_le)⟩

/-! ## Layouts -/

/-- A text with digits on both sides of a point, which are read as the literal of `d`. -/
def Pointed (d : Digits) (cs : List Char) : Prop :=
  ∃ whole frac, cs = whole.map digitChar ++ '.' :: frac.map digitChar ∧ IsWhole whole ∧
    frac ≠ [] ∧ (∀ y ∈ frac, y < 10) ∧
    (ofDigits whole * 10 ^ frac.length + ofDigits frac, -(frac.length : ℤ)) = d.literal

section Layouts

variable {d : Digits}

theorem pointed_of_small (h : d.Regular) (hneg : d.exponent < 0) :
    Pointed d ('0' :: '.' :: List.replicate (-d.exponent - 1).toNat '0' ++
      d.digits.map digitChar) := by
  have hlength := List.length_pos_iff_exists_cons.mpr (by
    obtain ⟨y, ys, hys, -⟩ := h.head
    exact ⟨y, ys, hys⟩)
  have hfraction : ¬ (d.exponent < 16 ∧ (d.digits.length : ℤ) ≤ d.exponent + 1) := by omega
  refine ⟨[0], List.replicate (-d.exponent - 1).toNat 0 ++ d.digits, ?_, ⟨by simp, .inl rfl⟩,
    ?_, ?_, ?_⟩
  · rw [List.map_append, List.map_replicate]
    rfl
  · exact List.append_ne_nil_of_right_ne_nil _ (List.length_pos_iff.mp hlength)
  · intro z hz
    rcases List.mem_append.mp hz with hz | hz
    · rw [List.eq_of_mem_replicate hz]
      decide
    · exact h.lt z hz
  · have hzero : ofDigits [0] = 0 := rfl
    have hexp : -((List.replicate (-d.exponent - 1).toNat 0 ++ d.digits).length : ℤ) =
        d.exponent - d.digits.length + 1 := by
      rw [List.length_append, List.length_replicate]
      omega
    rw [ofDigits_append, ofDigits_replicate_zero, Digits.literal, if_neg hfraction, hzero, hexp,
      Nat.zero_mul, Nat.zero_mul, Nat.zero_add, Nat.zero_add]

theorem pointed_of_integral (h : d.Regular) (hhigh : d.exponent < 16)
    (hlength : (d.digits.length : ℤ) ≤ d.exponent + 1) :
    Pointed d (d.digits.map digitChar ++
      List.replicate ((d.exponent + 1).toNat - d.digits.length) '0' ++ ['.', '0']) := by
  obtain ⟨y, ys, hys, hy⟩ := h.head
  refine ⟨d.digits ++ List.replicate ((d.exponent + 1).toNat - d.digits.length) 0, [0], ?_,
    ⟨?_, .inr ?_⟩, by simp, by simp, ?_⟩
  · rw [List.map_append, List.map_replicate]
    rfl
  · intro z hz
    rcases List.mem_append.mp hz with hz | hz
    · exact h.lt z hz
    · rw [List.eq_of_mem_replicate hz]
      decide
  · rw [hys, List.cons_append]
    exact ⟨y, _, rfl, hy⟩
  · have hzero : ofDigits [0] = 0 := rfl
    have hten : (d.exponent + 2 - d.digits.length).toNat =
        (d.exponent + 1).toNat - d.digits.length + 1 := by omega
    rw [ofDigits_append, ofDigits_replicate_zero, Digits.literal, if_pos ⟨hhigh, hlength⟩, hzero,
      hten, List.length_replicate, List.length_singleton, Nat.add_zero, Nat.add_zero,
      Nat.mul_assoc, ← Nat.pow_add]
    rfl

theorem pointed_of_mixed (h : d.Regular) (hnonneg : 0 ≤ d.exponent)
    (hlength : d.exponent + 1 < d.digits.length) :
    Pointed d ((d.digits.take (d.exponent + 1).toNat).map digitChar ++
      '.' :: (d.digits.drop (d.exponent + 1).toNat).map digitChar) := by
  obtain ⟨y, ys, hys, hy⟩ := h.head
  have hfraction : ¬ (d.exponent < 16 ∧ (d.digits.length : ℤ) ≤ d.exponent + 1) := by omega
  obtain ⟨n, hn⟩ : ∃ n : Nat, (d.exponent + 1).toNat = n + 1 := ⟨d.exponent.toNat, by omega⟩
  refine ⟨_, _, rfl, ⟨?_, .inr ?_⟩, ?_, ?_, ?_⟩
  · exact fun z hz => h.lt z (List.mem_of_mem_take hz)
  · rw [hn, hys, List.take_succ_cons]
    exact ⟨y, _, rfl, hy⟩
  · intro hnil
    have hle := List.drop_eq_nil_iff.mp hnil
    omega
  · exact fun z hz => h.lt z (List.mem_of_mem_drop hz)
  · have hexp : -((d.digits.drop (d.exponent + 1).toNat).length : ℤ) =
        d.exponent - d.digits.length + 1 := by
      rw [List.length_drop]
      omega
    rw [← ofDigits_append, List.take_append_drop, hexp, Digits.literal, if_neg hfraction]

theorem pointed_place (h : d.Regular) (hhigh : d.exponent < 16) :
    Pointed d (documentLayout.place d) := by
  unfold Layout.place
  split
  · rename_i hneg
    exact pointed_of_small h hneg
  · rename_i hnonneg
    simp only
    split
    · rename_i hnil
      have hle := List.drop_eq_nil_iff.mp hnil
      rw [List.take_of_length_le hle]
      exact pointed_of_integral h hhigh (by omega)
    · rename_i hcons
      have hlt : (d.exponent + 1).toNat < d.digits.length := by
        by_contra hge
        exact hcons (List.drop_eq_nil_iff.mpr (not_lt.mp hge))
      have hnone : (d.exponent + 1).toNat - d.digits.length = 0 := by omega
      simp only [hnone, List.replicate_zero, List.append_nil]
      exact pointed_of_mixed h (by omega) (by omega)

theorem pointed_zero : Pointed ⟨[0], 0⟩ (documentLayout.place ⟨[0], 0⟩) :=
  ⟨[0], [0], rfl, ⟨by simp, .inl rfl⟩, by simp, by simp, rfl⟩

end Layouts

/-! ## Reading -/

section Reading

variable {d : Digits} {cs : List Char} {s rest : Bytes} {negative : Bool} {num : Number}

theorem utf8EncodeChar_point : String.utf8EncodeChar '.' = [byte '.'] :=
  utf8EncodeChar_of_ascii (by decide)

theorem utf8EncodeChar_mark : String.utf8EncodeChar 'e' = [byte 'e'] :=
  utf8EncodeChar_of_ascii (by decide)

theorem utf8EncodeChar_sign (down : Bool) :
    String.utf8EncodeChar (if down then '-' else '+') = [byte (if down then '-' else '+')] := by
  cases down with
  | false => exact utf8EncodeChar_of_ascii (by decide)
  | true => exact utf8EncodeChar_of_ascii (by decide)

theorem noDigit_point : NoDigit (byte '.' :: s) := noDigit_cons (by decide)

theorem noDigit_mark : NoDigit (byte 'e' :: s) := noDigit_cons (by decide)

def ReadsAs (d : Digits) (cs : List Char) : Prop :=
  ∀ s, Delimited s → (encode cs ++ s).head? ≠ some (byte '-') ∧
    ∀ negative num rest, Reads (unsignedNumber negative) (encode cs ++ s) num rest ↔
      floatNumber negative d.literal.1 d.literal.2 = some num ∧ rest = s

theorem Pointed.readsAs (h : Pointed d cs) (hlt : d.literal.1 < 2 ^ 64) : ReadsAs d cs := by
  obtain ⟨whole, frac, rfl, hwhole, hne, hfrac, hliteral⟩ := h
  intro s hs
  have hbytes : encode (whole.map digitChar ++ '.' :: frac.map digitChar) ++ s =
      whole.map digitByte ++ byte '.' :: (frac.map digitByte ++ s) := by
    rw [encode_append, encode_cons, encode_digits hwhole.1, encode_digits hfrac,
      utf8EncodeChar_point]
    simp
  have hsum := congrArg Prod.fst hliteral
  simp only at hsum
  have hsmall : ofDigits whole < 2 ^ 64 := by
    have hle := le_mul_pow_add (ofDigits whole) frac.length (ofDigits frac)
    omega
  rw [hbytes]
  refine ⟨hwhole.head_ne_minus, fun negative num rest => ?_⟩
  rw [reads_unsignedNumber hwhole noDigit_point hsmall, reads_afterInteger_point,
    reads_fraction hne hfrac hs.noDigit (by omega), reads_floatEnd_delimited hs, zero_sub,
    ← hliteral]

def exponentChars (e : ℤ) : List Char :=
  'e' :: (if e < 0 then '-' else '+') :: natChars e.natAbs

theorem encode_exponentChars (e : ℤ) :
    encode (exponentChars e) ++ s = byte 'e' ::
      byte (if decide (e < 0) then '-' else '+') :: ((digits e.natAbs).map digitByte ++ s) := by
  have hsign : (if e < 0 then '-' else '+') = if decide (e < 0) then '-' else '+' := by simp
  rw [exponentChars, hsign, encode_cons, encode_cons, utf8EncodeChar_mark, utf8EncodeChar_sign,
    encode_natChars]
  rfl

theorem reads_exponentChars {m : Nat} {start e : ℤ} (he : e.natAbs ≤ greatestExponent)
    (hs : Delimited s) :
    Reads (Reader.exponent negative m start)
        (byte (if decide (e < 0) then '-' else '+') :: ((digits e.natAbs).map digitByte ++ s))
        num rest ↔ floatNumber negative m (start + e) = some num ∧ rest = s := by
  have hexp : (if decide (e < 0) then start - e.natAbs else start + e.natAbs) = start + e := by
    by_cases hneg : e < 0
    · simp only [hneg, decide_true, if_true]
      omega
    · simp only [hneg, decide_false, Bool.false_eq_true, if_false]
      omega
  rw [reads_exponent he hs.noDigit, hexp]

theorem scientific_readsAs_digit {y : Nat} (hexp : d.exponent.natAbs ≤ greatestExponent)
    (hdigits : d.digits = [y]) (hwhole : IsWhole [y]) (hsmall : ofDigits [y] < 10 ^ 17)
    (hliteral : d.literal = (ofDigits [y], d.exponent)) : ReadsAs d d.scientific := by
  intro s hs
  have hbytes : encode d.scientific ++ s = [y].map digitByte ++ (byte 'e' ::
      byte (if decide (d.exponent < 0) then '-' else '+') ::
        ((digits d.exponent.natAbs).map digitByte ++ s)) := by
    rw [← encode_exponentChars, ← encode_digits hwhole.1, ← List.append_assoc, ← encode_append,
      Digits.scientific, hdigits]
    rfl
  rw [hbytes, hliteral]
  refine ⟨hwhole.head_ne_minus, fun negative num rest => ?_⟩
  rw [reads_unsignedNumber hwhole noDigit_mark (by omega), reads_afterInteger_mark,
    reads_exponentChars hexp hs, zero_add]

theorem scientific_readsAs_digits {y z : Nat} {zs : List Nat}
    (hexp : d.exponent.natAbs ≤ greatestExponent) (hdigits : d.digits = y :: z :: zs)
    (hwhole : IsWhole [y]) (hfrac : ∀ x ∈ z :: zs, x < 10)
    (hsmall : ofDigits (y :: z :: zs) < 10 ^ 17)
    (hliteral : d.literal = (ofDigits (y :: z :: zs), 0 - (z :: zs).length + d.exponent)) :
    ReadsAs d d.scientific := by
  intro s hs
  have hbytes : encode d.scientific ++ s = [y].map digitByte ++ byte '.' ::
      ((z :: zs).map digitByte ++ (byte 'e' ::
        byte (if decide (d.exponent < 0) then '-' else '+') ::
          ((digits d.exponent.natAbs).map digitByte ++ s))) := by
    have hchars : d.scientific = [y].map digitChar ++
        '.' :: ((z :: zs).map digitChar ++ exponentChars d.exponent) := by
      rw [Digits.scientific, hdigits]
      rfl
    rw [← encode_exponentChars, ← encode_digits hwhole.1, ← encode_digits hfrac, hchars,
      encode_append, encode_cons, encode_append, utf8EncodeChar_point]
    simp only [List.append_assoc, List.cons_append, List.nil_append]
  have hsingle : ofDigits [y] = y := by simp [ofDigits]
  have hsum : y * 10 ^ (z :: zs).length + ofDigits (z :: zs) = ofDigits (y :: z :: zs) := by
    have hcons := mul_pow_add_ofDigits_cons 0 y (z :: zs)
    rw [Nat.zero_mul, Nat.zero_add, Nat.zero_mul, Nat.zero_add] at hcons
    exact hcons.symm
  have hle := le_mul_pow_add y (z :: zs).length (ofDigits (z :: zs))
  rw [hbytes, hliteral]
  refine ⟨hwhole.head_ne_minus, fun negative num rest => ?_⟩
  rw [reads_unsignedNumber hwhole noDigit_point (by omega), reads_afterInteger_point, hsingle,
    reads_fraction (by simp) hfrac noDigit_mark (by omega), reads_floatEnd_mark,
    reads_exponentChars hexp hs, hsum]

theorem scientific_readsAs (h : d.Regular) (hexp : d.exponent.natAbs ≤ greatestExponent)
    (hliteral : d.literal = (ofDigits d.digits, d.exponent - d.digits.length + 1)) :
    ReadsAs d d.scientific := by
  obtain ⟨y, ys, hys, hy⟩ := h.head
  have hlt := h.lt
  have hsmall := h.literal_lt.2
  rw [hliteral] at hsmall
  simp only [hys] at hlt hsmall
  obtain ⟨hylt, hyslt⟩ := List.forall_mem_cons.mp hlt
  have hwhole : IsWhole [y] := ⟨by simpa using hylt, .inr ⟨y, [], rfl, hy⟩⟩
  cases ys with
  | nil =>
      refine scientific_readsAs_digit hexp hys hwhole hsmall ?_
      rw [hliteral, hys, List.length_singleton, Nat.cast_one, sub_add_cancel]
  | cons z zs =>
      refine scientific_readsAs_digits hexp hys hwhole hyslt hsmall ?_
      rw [hliteral, hys, List.length_cons]
      congr 1
      omega

theorem reads_documentChars {x : Double} (hexp : (x.shortest .even).exponent.natAbs ≤ 2147483647)
    (hs : Delimited s) :
    Reads number (encode x.documentChars ++ s) num rest ↔
      floatNumber x.negative (x.shortest .even).literal.1 (x.shortest .even).literal.2 = some num ∧
        rest = s := by
  have hbody : ReadsAs (x.shortest .even)
      (if documentLayout.positional (x.shortest .even).exponent then
        documentLayout.place (x.shortest .even) else (x.shortest .even).scientific) := by
    by_cases hzero : x.magnitude = 0
    · rw [shortest_of_isZero .even hzero, if_pos (by decide)]
      exact pointed_zero.readsAs (by decide)
    · have hregular := (roundsTo_shortest .even hzero).1
      have hsmall : (x.shortest .even).literal.1 < 2 ^ 64 := hregular.literal_lt.2.trans (by decide)
      split
      · rename_i hpositional
        have hhigh := (of_decide_eq_true hpositional).2
        exact (pointed_place hregular hhigh).readsAs hsmall
      · rename_i hscientific
        refine scientific_readsAs hregular hexp ?_
        have hrange : ¬ ((x.shortest .even).exponent < 16 ∧
            ((x.shortest .even).digits.length : ℤ) ≤ (x.shortest .even).exponent + 1) := by
          rintro ⟨hhigh, hlength⟩
          exact hscientific (decide_eq_true ⟨by omega, hhigh⟩)
        rw [Digits.literal, if_neg hrange]
  obtain ⟨hhead, hread⟩ := hbody s hs
  unfold documentChars Layout.chars
  simp only [show documentLayout.tie = .even from rfl]
  cases hsign : x.negative with
  | false =>
      rw [if_neg Bool.false_ne_true, reads_number_unsigned hhead]
      exact hread false num rest
  | true =>
      rw [if_pos rfl, encode_cons, utf8EncodeChar_minus, List.singleton_append, List.cons_append,
        reads_number_minus]
      exact hread true num rest

end Reading

end SchemaSieve.Double
