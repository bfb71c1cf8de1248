import SchemaSieve.Json.Numerals
import SchemaSieve.Proofs.Numerals
import SchemaSieve.Proofs.QuotedStrings

/-!
# Number literals are read back

A literal is read up to the first byte that cannot continue it.  Integers come back as
they were written.  The digits of a double come back as an integer with a power of ten,
where a double without fraction counts the zero after its point as a digit.
-/

namespace SchemaSieve

namespace Decimal

theorem toNat_digitChar {d : Nat} (h : d < 10) : (digitChar d).toNat = 48 + d := by
  have hall : ∀ d < 10, (digitChar d).toNat = 48 + d := by decide
  exact hall d h

end Decimal

namespace Json.Reader

open Decimal

variable {α : Type} {a : α} {s rest : Bytes} {ds : List Nat} {negative : Bool} {num : Number}

/-! ## Runs of digits -/

def digitByte (d : Nat) : UInt8 := byte (digitChar d)

theorem encode_digits (h : ∀ d ∈ ds, d < 10) : encode (ds.map digitChar) = ds.map digitByte := by
  rw [encode_of_ascii, List.map_map]
  · rfl
  · intro c hc
    obtain ⟨d, hd, rfl⟩ := List.mem_map.mp hc
    rw [toNat_digitChar (h d hd)]
    have hlt := h d hd
    omega

theorem isDigitByte_digitByte {d : Nat} (h : d < 10) : isDigitByte (digitByte d) = true := by
  have hall : ∀ d < 10, isDigitByte (digitByte d) = true := by decide
  exact hall d h

theorem digitOf_digitByte {d : Nat} (h : d < 10) : digitOf (digitByte d) = d := by
  have hall : ∀ d < 10, digitOf (digitByte d) = d := by decide
  exact hall d h

theorem digitByte_eq_zero_iff {d : Nat} (h : d < 10) : digitByte d = byte '0' ↔ d = 0 := by
  have hall : ∀ d < 10, digitByte d = byte '0' ↔ d = 0 := by decide
  exact hall d h

theorem digitByte_ne_minus {d : Nat} (h : d < 10) : digitByte d ≠ byte '-' := by
  have hall : ∀ d < 10, digitByte d ≠ byte '-' := by decide
  exact hall d h

def NoDigit (s : Bytes) : Prop := ∀ b, s.head? = some b → isDigitByte b = false

theorem noDigit_cons {b : UInt8} (h : isDigitByte b = false) : NoDigit (b :: s) := by
  intro c hc
  cases hc
  exact h

theorem mul_pow_add_ofDigits_cons (m d : Nat) (ds : List Nat) :
    m * 10 ^ (d :: ds).length + ofDigits (d :: ds) =
      (m * 10 + d) * 10 ^ ds.length + ofDigits ds := by
  rw [ofDigits_cons, List.length_cons, Nat.pow_succ]
  ring

theorem le_mul_pow_add (m k n : Nat) : m ≤ m * 10 ^ k + n := by
  have hpos : 0 < 10 ^ k := Nat.pow_pos (by decide)
  have hle := Nat.le_mul_of_pos_right m hpos
  omega

theorem gather_eq (m : Nat) (hds : ∀ d ∈ ds, d < 10) (hs : NoDigit s)
    (hlt : m * 10 ^ ds.length + ofDigits ds < 2 ^ 64) :
    gather m (ds.map digitByte ++ s) = (m * 10 ^ ds.length + ofDigits ds, ds.length, s) := by
  induction ds generalizing m with
  | nil =>
      cases s with
      | nil => simp [gather, ofDigits]
      | cons b s => simp [gather, hs b rfl, ofDigits]
  | cons d ds ih =>
      obtain ⟨hd, hds⟩ := List.forall_mem_cons.mp hds
      rw [mul_pow_add_ofDigits_cons] at hlt ⊢
      have hstep : m * 10 + d < 0x10000000000000000 :=
        Nat.lt_of_le_of_lt (le_mul_pow_add ..) hlt
      rw [List.map_cons, List.cons_append, gather]
      simp only [isDigitByte_digitByte hd, digitOf_digitByte hd, hstep, and_self, if_true,
        ih (m * 10 + d) hds hlt, List.length_cons]

theorem gatherExponent_eq (e : Nat) (hds : ∀ d ∈ ds, d < 10) (hs : NoDigit s)
    (hle : e * 10 ^ ds.length + ofDigits ds ≤ greatestExponent) :
    gatherExponent e (ds.map digitByte ++ s) = (some (e * 10 ^ ds.length + ofDigits ds), s) := by
  induction ds generalizing e with
  | nil =>
      cases s with
      | nil => simp [gatherExponent, ofDigits]
      | cons b s => simp [gatherExponent, hs b rfl, ofDigits]
  | cons d ds ih =>
      obtain ⟨hd, hds⟩ := List.forall_mem_cons.mp hds
      rw [mul_pow_add_ofDigits_cons] at hle ⊢
      have hstep : e * 10 + d ≤ greatestExponent := Nat.le_trans (le_mul_pow_add ..) hle
      rw [List.map_cons, List.cons_append, gatherExponent]
      simp only [isDigitByte_digitByte hd, digitOf_digitByte hd, hstep, if_true,
        ih (e * 10 + d) hds hle]

theorem dropDigits_of_noDigit (hs : NoDigit s) :
    s.takeWhile isDigitByte = [] ∧ s.dropWhile isDigitByte = s := by
  cases s with
  | nil => exact ⟨rfl, rfl⟩
  | cons b s => simp [hs b rfl]

/-! ## The parts of a literal -/

@[simp] theorem reads_gatherDigits_bind {m : Nat} {f : Nat × Nat → Reader α} :
    Reads (gatherDigits m >>= f) s a rest ↔
      Reads (f ((gather m s).1, (gather m s).2.1)) (gather m s).2.2 a rest :=
  reads_bind_of_forall fun _ _ => reads_of_total rfl

@[simp] theorem reads_exponentDigits_bind {e : Nat} {f : Option Nat → Reader α} :
    Reads (exponentDigits e >>= f) s a rest ↔
      Reads (f (gatherExponent e s).1) (gatherExponent e s).2 a rest :=
  reads_bind_of_forall fun _ _ => reads_of_total rfl

@[simp] theorem reads_inRange {n : Option Number} :
    Reads (inRange n) s num rest ↔ n = some num ∧ rest = s := by
  cases n with
  | none => simp [inRange]
  | some n => simp [inRange, eq_comm]

/-- What follows a literal does not continue it. -/
def Delimited (s : Bytes) : Prop :=
  ∀ b, s.head? = some b → isDigitByte b = false ∧ b ≠ byte '.' ∧ isExponentMark b = false

theorem Delimited.noDigit (h : Delimited s) : NoDigit s := fun b hb => (h b hb).1

theorem reads_floatEnd_delimited {m : Nat} {e : Int} (hs : Delimited s) :
    Reads (floatEnd negative m e) s num rest ↔
      floatNumber negative m e = some num ∧ rest = s := by
  rw [floatEnd, reads_look_bind]
  cases s with
  | nil => simp
  | cons b s => simp [(hs b rfl).2.2]

theorem reads_afterInteger_delimited {m : Nat} (hs : Delimited s) :
    Reads (afterInteger negative m 0) s num rest ↔
      integerNumber negative m = some num ∧ rest = s := by
  rw [afterInteger, reads_look_bind]
  cases s with
  | nil => simp
  | cons b s => simp [(hs b rfl).2.1, (hs b rfl).2.2]

theorem reads_exponentSign_bind {down : Bool} {f : Bool → Reader α} :
    Reads (exponentSign >>= f) (byte (if down then '-' else '+') :: s) a rest ↔
      Reads (f down) s a rest := by
  refine reads_bind_of_forall fun b t => ?_
  rw [exponentSign, reads_look_bind]
  cases down with
  | false =>
      have hplus : byte '+' ≠ byte '-' := by decide
      simp [hplus]
  | true => simp

theorem reads_exponent {m k : Nat} {e : Int} {down : Bool} (hk : k ≤ greatestExponent)
    (hs : NoDigit s) :
    Reads (exponent negative m e)
        (byte (if down then '-' else '+') :: ((digits k).map digitByte ++ s)) num rest ↔
      floatNumber negative m (if down then e - k else e + k) = some num ∧ rest = s := by
  obtain ⟨d, ds, hds⟩ := List.exists_cons_of_ne_nil (digits_ne_nil k)
  have hlt := digits_lt k
  rw [hds, List.forall_mem_cons] at hlt
  have hvalue : d * 10 ^ ds.length + ofDigits ds = k := by
    have hcons := mul_pow_add_ofDigits_cons 0 d ds
    rw [Nat.zero_mul, Nat.zero_add, Nat.zero_mul, Nat.zero_add, ← hds, ofDigits_digits] at hcons
    exact hcons.symm
  have hgather := gatherExponent_eq d hlt.2 hs (by omega)
  rw [hvalue] at hgather
  rw [exponent, reads_exponentSign_bind, reads_next_bind, hds]
  simp only [List.map_cons, List.cons_append, List.head?_cons, List.tail_cons,
    isDigitByte_digitByte hlt.1, if_true, digitOf_digitByte hlt.1, reads_exponentDigits_bind,
    hgather, reads_inRange]

theorem reads_fraction {m : Nat} {e : Int} (hne : ds ≠ []) (hds : ∀ d ∈ ds, d < 10)
    (hs : NoDigit s) (hlt : m * 10 ^ ds.length + ofDigits ds < 2 ^ 64) :
    Reads (fraction negative m e) (ds.map digitByte ++ s) num rest ↔
      Reads (floatEnd negative (m * 10 ^ ds.length + ofDigits ds) (e - ds.length)) s num rest := by
  have hlength : ds.length ≠ 0 := by simpa using hne
  rw [fraction, reads_gatherDigits_bind]
  simp only [gather_eq m hds hs hlt, reads_look_bind, hlength, if_false]
  cases s with
  | nil => rfl
  | cons b s => simp [hs b rfl]

theorem reads_afterInteger_point {m : Nat} :
    Reads (afterInteger negative m 0) (byte '.' :: s) num rest ↔
      Reads (fraction negative m 0) s num rest := by
  rw [afterInteger, reads_look_bind]
  simp only [List.head?_cons, if_true]
  exact reads_skip_bind

theorem reads_afterInteger_mark {m : Nat} :
    Reads (afterInteger negative m 0) (byte 'e' :: s) num rest ↔
      Reads (exponent negative m 0) s num rest := by
  have hpoint : byte 'e' ≠ byte '.' := by decide
  have hmark : isExponentMark (byte 'e') = true := by decide
  rw [afterInteger, reads_look_bind]
  simp only [List.head?_cons, hpoint, if_false, hmark, if_true]
  exact reads_skip_bind

theorem reads_floatEnd_mark {m : Nat} {e : Int} :
    Reads (floatEnd negative m e) (byte 'e' :: s) num rest ↔
      Reads (exponent negative m e) s num rest := by
  have hmark : isExponentMark (byte 'e') = true := by decide
  rw [floatEnd, reads_look_bind]
  simp only [List.head?_cons, hmark, if_true]
  exact reads_skip_bind

/-- The digits of an integer: a zero alone, or digits that do not start with one. -/
def IsWhole (ds : List Nat) : Prop :=
  (∀ d ∈ ds, d < 10) ∧ (ds = [0] ∨ ∃ y ys, ds = y :: ys ∧ y ≠ 0)

theorem reads_unsignedNumber (hds : IsWhole ds) (hs : NoDigit s) (hlt : ofDigits ds < 2 ^ 64) :
    Reads (unsignedNumber negative) (ds.map digitByte ++ s) num rest ↔
      Reads (afterInteger negative (ofDigits ds) 0) s num rest := by
  obtain ⟨hdigits, rfl | ⟨y, ys, rfl, hy⟩⟩ := hds
  · have hvalue : ofDigits [0] = 0 := rfl
    have hzero : digitByte 0 = byte '0' := rfl
    rw [unsignedNumber, reads_next_bind, hvalue]
    simp only [List.map_cons, List.map_nil, List.cons_append, List.nil_append, List.head?_cons,
      List.tail_cons, hzero, if_true, reads_look_bind]
    cases s with
    | nil => rfl
    | cons b s => simp [hs b rfl]
  · obtain ⟨hylt, hyslt⟩ := List.forall_mem_cons.mp hdigits
    have hcons := mul_pow_add_ofDigits_cons 0 y ys
    rw [Nat.zero_mul, Nat.zero_add, Nat.zero_mul, Nat.zero_add] at hcons
    have hgather := gather_eq y hyslt hs (by omega)
    have hzero : digitByte y ≠ byte '0' := mt (digitByte_eq_zero_iff hylt).mp hy
    obtain ⟨htake, hdrop⟩ := dropDigits_of_noDigit hs
    rw [unsignedNumber, reads_next_bind, hcons]
    simp only [List.map_cons, List.cons_append, List.head?_cons, List.tail_cons, hzero, if_false,
      isDigitByte_digitByte hylt, if_true, digitOf_digitByte hylt, reads_gatherDigits_bind,
      hgather, reads_dropDigits_bind, htake, hdrop, List.length_nil]

theorem reads_number_minus :
    Reads number (byte '-' :: s) num rest ↔ Reads (unsignedNumber true) s num rest := by
  rw [number, reads_look_bind]
  simp only [List.head?_cons, if_true]
  exact reads_skip_bind

theorem reads_number_unsigned (hs : s.head? ≠ some (byte '-')) :
    Reads number s num rest ↔ Reads (unsignedNumber false) s num rest := by
  rw [number, reads_look_bind, if_neg hs]

theorem IsWhole.head_ne_minus (hds : IsWhole ds) :
    (ds.map digitByte ++ s).head? ≠ some (byte '-') := by
  obtain ⟨y, ys, rfl⟩ : ∃ y ys, ds = y :: ys := by
    obtain ⟨-, rfl | ⟨y, ys, rfl, -⟩⟩ := hds
    · exact ⟨0, [], rfl⟩
    · exact ⟨y, ys, rfl⟩
  have hy := (List.forall_mem_cons.mp hds.1).1
  simpa using digitByte_ne_minus hy

theorem isWhole_digits (n : Nat) : IsWhole (digits n) := by
  refine ⟨digits_lt n, ?_⟩
  rcases Nat.eq_zero_or_pos n with rfl | hn
  · exact .inl (by simp [digits])
  · exact .inr (exists_head_digits hn)

/-! ## Integers -/

theorem encode_natChars (n : Nat) : encode (natChars n) = (digits n).map digitByte :=
  encode_digits (digits_lt n)

theorem utf8EncodeChar_minus : String.utf8EncodeChar '-' = [byte '-'] :=
  utf8EncodeChar_of_ascii (by decide)

theorem reads_unsignedNumber_natChars {n : Nat} (hn : n < 2 ^ 64) (hs : Delimited s) :
    Reads (unsignedNumber negative) (encode (natChars n) ++ s) num rest ↔
      integerNumber negative n = some num ∧ rest = s := by
  have hvalue := ofDigits_digits n
  rw [encode_natChars, reads_unsignedNumber (isWhole_digits n) hs.noDigit (by omega), hvalue]
  exact reads_afterInteger_delimited hs

theorem reads_number_intChars {n : ℤ} (range : -0x8000000000000000 ≤ n ∧ n < 0x10000000000000000)
    (hs : Delimited s) : Reads number (encode (intChars n) ++ s) (.integer n range) s := by
  cases n with
  | ofNat n =>
      have hn : n < 2 ^ 64 := by
        have hlt := range.2
        simp only [Int.ofNat_eq_natCast] at hlt
        omega
      have hhead : (encode (natChars n) ++ s).head? ≠ some (byte '-') := by
        rw [encode_natChars]
        exact (isWhole_digits n).head_ne_minus
      rw [intChars, reads_number_unsigned hhead, reads_unsignedNumber_natChars hn hs]
      refine ⟨?_, rfl⟩
      simp only [integerNumber, Bool.false_eq_true, false_and, if_false]
      exact dif_pos range
  | negSucc n =>
      have hn : n + 1 ≤ 2 ^ 63 := by
        have hle := range.1
        omega
      rw [intChars, encode_cons, utf8EncodeChar_minus, List.singleton_append, List.cons_append,
        reads_number_minus, reads_unsignedNumber_natChars (by omega) hs]
      refine ⟨?_, rfl⟩
      have hplain : ¬ (n + 1 = 0 ∨ 0x8000000000000000 < n + 1) := by omega
      simp only [integerNumber, hplain, and_false, if_false, if_true]
      exact dif_pos range

end Json.Reader

end SchemaSieve
