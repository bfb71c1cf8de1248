import SchemaSieve.Proofs.PlainTexts
import SchemaSieve.Proofs.Rereading

/-!
# Numbers are told apart by their texts

In a document an integer is written by digits alone and a double with a point or an exponent.
Behind its sign the text of a double is a numeral of its shortest digits, which round to its
magnitude.  So the text of a number is the text of no other, a negative zero included.
-/

namespace SchemaSieve

namespace Decimal

variable {cs sign : List Char} {negative : Bool} {c : Char} {ds : List Nat}

def isNumeralChar (c : Char) : Bool := isDigit c || c ∈ ['+', '-', '.', 'e', 'E']

theorem isNumeralChar_of_isDigit (h : isDigit c = true) : isNumeralChar c = true := by
  simp [isNumeralChar, h]

theorem IsMark.isNumeralChar (h : IsMark c) : isNumeralChar c = true := by
  rcases h with rfl | rfl | rfl <;> rfl

theorem SignText.isNumeralChar (h : SignText sign negative) :
    ∀ c ∈ sign, isNumeralChar c = true := by
  cases h <;> simp [Decimal.isNumeralChar]

theorem isNumeralChar_of_mem_digits (h : ∀ d ∈ ds, d < 10) :
    ∀ c ∈ ds.map digitChar, isNumeralChar c = true :=
  fun c hc => isNumeralChar_of_isDigit (isDigit_of_mem_digits h c hc)

theorem IntegerText.isNumeralChar {n : ℤ} (h : IntegerText cs n) :
    ∀ c ∈ cs, isNumeralChar c = true := by
  obtain ⟨signed, digits, -⟩ := h
  exact List.forall_mem_append.mpr ⟨signed.isNumeralChar, isNumeralChar_of_mem_digits digits⟩

theorem FractionText.isNumeralChar (h : FractionText cs ds) (digits : ∀ d ∈ ds, d < 10) :
    ∀ c ∈ cs, isNumeralChar c = true := by
  cases h with
  | missing => exact List.forall_mem_nil _
  | pointed => exact List.forall_mem_cons.mpr ⟨rfl, isNumeralChar_of_mem_digits digits⟩

theorem PowerText.isNumeralChar {e : ℤ} (h : PowerText cs e) :
    ∀ c ∈ cs, isNumeralChar c = true := by
  cases h with
  | missing => exact List.forall_mem_nil _
  | marked isMark integer =>
      exact List.forall_mem_cons.mpr ⟨IsMark.isNumeralChar (.inr isMark), integer.isNumeralChar⟩

theorem NumeralText.isNumeralChar {q : ℚ} (h : NumeralText cs q) :
    ∀ c ∈ cs, isNumeralChar c = true := by
  obtain ⟨signed, digits, -, fractional, scaled⟩ := h
  obtain ⟨hwhole, hfraction⟩ := List.forall_mem_append.mp digits
  simp only [List.forall_mem_append]
  exact ⟨signed.isNumeralChar, isNumeralChar_of_mem_digits hwhole,
    fractional.isNumeralChar hfraction, scaled.isNumeralChar⟩

theorem NumeralText.ne_nil {q : ℚ} (h : NumeralText cs q) : cs ≠ [] := by
  rintro rfl
  obtain ⟨n, hread, -⟩ := h.read?
  cases hread

theorem NumeralText.value_unique {p q : ℚ} (h : NumeralText cs p) (h' : NumeralText cs q) :
    p = q := by
  obtain ⟨m, hm, rfl⟩ := h.read?
  obtain ⟨n, hn, rfl⟩ := h'.read?
  rw [hm] at hn
  cases hn
  rfl

theorem intChars_injective {m n : ℤ} (h : intChars m = intChars n) : m = n := by
  have hm := (integerText_intChars m).readInt?
  rw [h, (integerText_intChars n).readInt?] at hm
  exact (Option.some.inj hm).symm

end Decimal

namespace Double

open Decimal

variable {d : Digits} {cs : List Char}

/-! ## Exponents -/

theorem integerText_exponent (e : ℤ) :
    IntegerText ((if e < 0 then '-' else '+') :: natChars e.natAbs) e := by
  have hne := digits_ne_nil e.natAbs
  have hlt := digits_lt e.natAbs
  split
  next hneg =>
    have htext := IntegerText.intro .minus hlt hne
    simp only [ofDigits_digits, if_true] at htext
    rwa [show -(e.natAbs : ℤ) = e by omega] at htext
  next hpos =>
    have htext := IntegerText.intro .plus hlt hne
    simp only [ofDigits_digits, Bool.false_eq_true, if_false] at htext
    rwa [show (e.natAbs : ℤ) = e by omega] at htext

theorem powerText_exponentChars (e : ℤ) : PowerText (exponentChars e) e :=
  .marked (.inl rfl) (integerText_exponent e)

theorem exists_scientific {y : Nat} {ys : List Nat} (h : d.digits = y :: ys) :
    ∃ pointed, FractionText pointed ys ∧
      d.scientific = [y].map digitChar ++ (pointed ++ exponentChars d.exponent) := by
  cases ys with
  | nil => exact ⟨[], .missing, by rw [Digits.scientific, h]; rfl⟩
  | cons z zs =>
      refine ⟨'.' :: (z :: zs).map digitChar, .pointed, ?_⟩
      rw [Digits.scientific, h]
      rfl

/-! ## Texts without a sign -/

structure FloatText (d : Digits) (cs : List Char) : Prop where
  numeral : NumeralText cs d.value
  unsigned : Unsigned cs
  marked : ∃ c ∈ cs, IsMark c

theorem Pointed.floatText (h : Pointed d cs) : FloatText d cs where
  numeral := by simpa using h.numeralText .missing
  unsigned := by
    obtain ⟨whole, frac, rfl, hwhole, -⟩ := h
    refine unsigned_digits hwhole.1 ?_
    rintro c ⟨⟩
    exact IsMark.not_sign (.inl rfl)
  marked := by
    obtain ⟨whole, frac, rfl, -⟩ := h
    exact ⟨'.', by simp, .inl rfl⟩

theorem floatText_scientific (hlt : ∀ y ∈ d.digits, y < 10) (hne : d.digits ≠ []) :
    FloatText d d.scientific := by
  obtain ⟨y, ys, hys⟩ := List.exists_cons_of_ne_nil hne
  obtain ⟨pointed, hpointed, hchars⟩ := exists_scientific hys
  have hpower := powerText_exponentChars d.exponent
  have hvalue : ((if false = true then -1 else 1) * ofDigits ([y] ++ ys) *
      10 ^ (d.exponent - ys.length) : ℚ) = d.value := by
    have hexp : d.exponent - d.digits.length + 1 = d.exponent - ys.length := by
      simp only [hys, List.length_cons]
      omega
    rw [Digits.value, hexp, hys]
    simp
  rw [hys] at hlt
  rw [hchars]
  refine ⟨?_, ?_, 'e', by simp [exponentChars], .inr (.inl rfl)⟩
  · rw [← hvalue]
    exact @NumeralText.intro [] pointed _ false [y] ys _ .missing hlt (by simp) hpointed hpower
  · refine unsigned_digits (fun z hz => hlt z (by simp_all)) fun c hc => ?_
    exact (hpointed.startsWithMark hpower.startsWithMark c hc).not_sign

theorem floatText_zero : FloatText ⟨[0], 0⟩ (documentLayout.place ⟨[0], 0⟩) :=
  pointed_zero.floatText

/-! ## Doubles -/

variable {x y : Double}

theorem exists_documentChars (x : Double) : ∃ sign body, SignText sign x.negative ∧
    FloatText (x.shortest .even) body ∧ x.documentChars = sign ++ body := by
  have hbody : FloatText (x.shortest .even)
      (if documentLayout.positional (x.shortest .even).exponent then
        documentLayout.place (x.shortest .even) else (x.shortest .even).scientific) := by
    by_cases hzero : x.magnitude = 0
    · rw [shortest_of_isZero .even hzero, if_pos (by decide)]
      exact floatText_zero
    · have hregular := (roundsTo_shortest .even hzero).1
      obtain ⟨y, ys, hys, -⟩ := hregular.head
      split
      next hpositional =>
        exact (pointed_place hregular (of_decide_eq_true hpositional).2).floatText
      next => exact floatText_scientific hregular.lt (by simp [hys])
  obtain ⟨sign, hsign, hchars⟩ := documentLayout.exists_sign_chars x
  exact ⟨sign, _, hsign, hbody, hchars⟩

theorem isNumeralChar_documentChars (x : Double) :
    ∀ c ∈ x.documentChars, isNumeralChar c = true := by
  obtain ⟨sign, body, hsign, hbody, hchars⟩ := exists_documentChars x
  rw [hchars]
  exact List.forall_mem_append.mpr ⟨hsign.isNumeralChar, hbody.numeral.isNumeralChar⟩

theorem documentChars_ne_nil (x : Double) : x.documentChars ≠ [] := by
  obtain ⟨sign, body, -, hbody, hchars⟩ := exists_documentChars x
  rw [hchars]
  exact List.append_ne_nil_of_right_ne_nil _ hbody.numeral.ne_nil

theorem intChars_ne_documentChars (n : ℤ) (x : Double) : intChars n ≠ x.documentChars := by
  intro h
  obtain ⟨sign, body, -, hbody, hchars⟩ := exists_documentChars x
  obtain ⟨c, hmem, hc⟩ := hbody.marked
  have hread := (integerText_intChars n).readInt?
  rw [h, hchars, readInt?_eq_none hc (List.mem_append_right _ hmem)] at hread
  cases hread

theorem documentChars_injective (hx : x.isFinite = true) (hy : y.isFinite = true)
    (h : x.documentChars = y.documentChars) : x = y := by
  obtain ⟨sign, body, hsign, hbody, hchars⟩ := exists_documentChars x
  obtain ⟨sign', body', hsign', hbody', hchars'⟩ := exists_documentChars y
  have hsplit := hsign.splitSign hbody.unsigned
  rw [← hchars, h, hchars', hsign'.splitSign hbody'.unsigned, Prod.mk.injEq] at hsplit
  obtain ⟨hnegative, rfl⟩ := hsplit
  have hvalue := hbody.numeral.value_unique hbody'.numeral
  refine ext_magnitude hnegative.symm ?_
  rw [← nearest_shortest hx, ← nearest_shortest hy, hvalue]

end Double

namespace Number

open Decimal

theorem isNumeralChar_chars (n : Number) : ∀ c ∈ n.chars, isNumeralChar c = true := by
  cases n with
  | integer n _ => exact (integerText_intChars n).isNumeralChar
  | float x _ => exact x.isNumeralChar_documentChars

theorem chars_ne_nil (n : Number) : n.chars ≠ [] := by
  cases n with
  | integer n _ => exact (integerText_intChars n).numeralText.ne_nil
  | float x _ => exact x.documentChars_ne_nil

theorem chars_injective {m n : Number} (h : m.chars = n.chars) : m = n := by
  cases m with
  | integer m _ =>
      cases n with
      | integer n _ =>
          obtain rfl := intChars_injective h
          rfl
      | float y _ => exact absurd h (Double.intChars_ne_documentChars m y)
  | float x hx =>
      cases n with
      | integer n _ => exact absurd h.symm (Double.intChars_ne_documentChars n x)
      | float y hy =>
          obtain rfl := Double.documentChars_injective hx hy h
          rfl

end Number

end SchemaSieve
