import SchemaSieve.Proofs.Numerals

/-!
# Numerals and what they denote

The grammar of numerals, part by part, with the number that each part stands for.
An integer is a sign and digits; a numeral may also have a point and a power of
ten.  The readers read exactly this number, and a text with a point or a power of
ten is none of the narrower forms.
-/

namespace SchemaSieve.Decimal

/-! ## Grammar -/

/-- A sign, which may be missing, and whether it is a minus. -/
inductive SignText : List Char → Bool → Prop
  | missing : SignText [] false
  | plus : SignText ['+'] false
  | minus : SignText ['-'] true

inductive IntegerText : List Char → ℤ → Prop
  | intro {sign : List Char} {negative : Bool} {ds : List Nat} (signed : SignText sign negative)
      (digits : ∀ d ∈ ds, d < 10) (nonempty : ds ≠ []) :
      IntegerText (sign ++ ds.map digitChar)
        (if negative then -(ofDigits ds : ℤ) else ofDigits ds)

/-- The digits after a point; without a point there are none. -/
inductive FractionText : List Char → List Nat → Prop
  | missing : FractionText [] []
  | pointed {ds : List Nat} : FractionText ('.' :: ds.map digitChar) ds

inductive PowerText : List Char → ℤ → Prop
  | missing : PowerText [] 0
  | marked {mark : Char} {cs : List Char} {e : ℤ} (isMark : mark = 'e' ∨ mark = 'E')
      (integer : IntegerText cs e) : PowerText (mark :: cs) e

inductive NumeralText : List Char → ℚ → Prop
  | intro {sign pointed power : List Char} {negative : Bool} {whole fraction : List Nat} {e : ℤ}
      (signed : SignText sign negative) (digits : ∀ d ∈ whole ++ fraction, d < 10)
      (nonempty : whole ++ fraction ≠ []) (fractional : FractionText pointed fraction)
      (scaled : PowerText power e) :
      NumeralText (sign ++ (whole.map digitChar ++ (pointed ++ power)))
        ((if negative then -1 else 1) * ofDigits (whole ++ fraction) *
          10 ^ (e - fraction.length))

def Numeral.value (n : Numeral) : ℚ :=
  (if n.negative then -1 else 1) * n.significand * 10 ^ n.exponent

/-! ## Parts -/

variable {cs : List Char} {ds : List Nat} {sign : List Char} {negative : Bool}

@[simp] theorem isDigit_digitChar {d : Nat} (h : d < 10) : isDigit (digitChar d) = true :=
  isDigit_of_charDigit? (charDigit?_digitChar h)

theorem isDigit_of_mem_digits (h : ∀ d ∈ ds, d < 10) :
    ∀ c ∈ ds.map digitChar, isDigit c = true := by
  rw [List.forall_mem_map]
  exact fun d hd => isDigit_digitChar (h d hd)

theorem readNat?_digits (h : ∀ d ∈ ds, d < 10) (hne : ds ≠ []) :
    readNat? (ds.map digitChar) = some (ofDigits ds) := by
  simp [readNat?, hne, mapM_charDigit?_map_digitChar h]

def Unsigned (cs : List Char) : Prop := ∀ c, cs.head? = some c → c ≠ '+' ∧ c ≠ '-'

theorem SignText.splitSign (h : SignText sign negative) (hcs : Unsigned cs) :
    splitSign (sign ++ cs) = (negative, cs) := by
  cases h with
  | missing =>
      cases cs with
      | nil => rfl
      | cons c cs =>
          obtain ⟨hplus, hminus⟩ := hcs c rfl
          simp [Decimal.splitSign, hplus, hminus]
  | plus => rfl
  | minus => rfl

theorem unsigned_nil : Unsigned [] := nofun

theorem unsigned_digits (h : ∀ d ∈ ds, d < 10) (hcs : Unsigned cs) :
    Unsigned (ds.map digitChar ++ cs) := by
  cases ds with
  | nil => exact hcs
  | cons d ds =>
      intro c hc
      obtain rfl : digitChar d = c := by simpa using hc
      have hdigit := isDigit_digitChar (h d List.mem_cons_self)
      constructor <;> (intro heq; rw [heq] at hdigit; cases hdigit)

theorem IntegerText.readInt? {n : ℤ} (h : IntegerText cs n) : readInt? cs = some n := by
  obtain ⟨signed, digits, nonempty⟩ := h
  have hsplit := signed.splitSign (unsigned_digits digits unsigned_nil)
  rw [List.append_nil] at hsplit
  simp [Decimal.readInt?, hsplit, readNat?_digits digits nonempty]

theorem PowerText.readExponent? {e : ℤ} (h : PowerText cs e) : readExponent? cs = some e := by
  cases h with
  | missing => rfl
  | marked isMark integer => rw [Decimal.readExponent?, if_pos isMark, integer.readInt?]

def IsMark (c : Char) : Prop := c = '.' ∨ c = 'e' ∨ c = 'E'

theorem IsMark.not_digit {c : Char} (h : IsMark c) : isDigit c = false := by
  rcases h with rfl | rfl | rfl <;> rfl

theorem IsMark.not_sign {c : Char} (h : IsMark c) : c ≠ '+' ∧ c ≠ '-' := by
  rcases h with rfl | rfl | rfl <;> decide

def StartsWithMark (cs : List Char) : Prop := ∀ c, cs.head? = some c → IsMark c

theorem PowerText.startsWithMark {e : ℤ} (h : PowerText cs e) : StartsWithMark cs := by
  cases h with
  | missing => simp [StartsWithMark]
  | marked isMark integer =>
      rintro c ⟨⟩
      exact .inr isMark

theorem FractionText.startsWithMark {pointed power : List Char} (h : FractionText pointed ds)
    (hpower : StartsWithMark power) : StartsWithMark (pointed ++ power) := by
  cases h with
  | missing => exact hpower
  | pointed =>
      rintro c ⟨⟩
      exact .inl rfl

def NoDigit (cs : List Char) : Prop := ∀ c, cs.head? = some c → isDigit c = false

theorem StartsWithMark.noDigit (h : StartsWithMark cs) : NoDigit cs :=
  fun c hc => (h c hc).not_digit

theorem span_digits (h : ∀ d ∈ ds, d < 10) (hcs : NoDigit cs) :
    (ds.map digitChar ++ cs).takeWhile isDigit = ds.map digitChar ∧
      (ds.map digitChar ++ cs).dropWhile isDigit = cs := by
  have hdigits := isDigit_of_mem_digits h
  have hrest : cs.takeWhile isDigit = [] ∧ cs.dropWhile isDigit = cs := by
    cases cs with
    | nil => exact ⟨rfl, rfl⟩
    | cons c cs => simp [hcs c rfl]
  rw [List.takeWhile_append_of_pos hdigits, List.dropWhile_append_of_pos hdigits, hrest.1, hrest.2,
    List.append_nil]
  exact ⟨rfl, rfl⟩

theorem FractionText.splitFraction {pointed power : List Char} {e : ℤ}
    (h : FractionText pointed ds) (digits : ∀ d ∈ ds, d < 10) (scaled : PowerText power e) :
    splitFraction (pointed ++ power) = (ds.map digitChar, power) := by
  cases h with
  | missing =>
      cases scaled with
      | missing => rfl
      | marked isMark integer => rcases isMark with rfl | rfl <;> rfl
  | pointed =>
      obtain ⟨htake, hdrop⟩ := span_digits digits scaled.startsWithMark.noDigit
      simp [Decimal.splitFraction, htake, hdrop]

/-! ## Numerals -/

/-- Every numeral is read, and as the number it denotes. -/
theorem NumeralText.read? {q : ℚ} (h : NumeralText cs q) :
    ∃ n, Numeral.read? cs = some n ∧ n.value = q := by
  obtain @⟨sign, pointed, power, negative, whole, fraction, e, signed, digits, nonempty,
    fractional, scaled⟩ := h
  obtain ⟨hwhole, hfraction⟩ := List.forall_mem_append.mp digits
  have hrest := fractional.startsWithMark scaled.startsWithMark
  have hunsigned : Unsigned (pointed ++ power) := fun c hc => (hrest c hc).not_sign
  obtain ⟨htake, hdrop⟩ := span_digits hwhole hrest.noDigit
  have hsplit := signed.splitSign (unsigned_digits hwhole hunsigned)
  have hread := readNat?_digits digits nonempty
  rw [List.map_append] at hread
  refine ⟨⟨negative, ofDigits (whole ++ fraction), e - fraction.length⟩, ?_, rfl⟩
  simp [Numeral.read?, hsplit, htake, hdrop, fractional.splitFraction hfraction scaled, hread,
    scaled.readExponent?]

theorem read?_value_of_readInt? {i : ℤ} (h : readInt? cs = some i) :
    ∃ n, Numeral.read? cs = some n ∧ n.value = i := by
  obtain ⟨negative, ds, n, hsplit, hread, rfl⟩ := readInt?_eq_some h
  refine ⟨_, read?_of_splitSign hsplit hread, ?_⟩
  cases negative <;> simp [Numeral.value]

theorem isDigit_or_sign_of_readInt? {i : ℤ} (h : readInt? cs = some i) :
    ∀ c ∈ cs, isDigit c = true ∨ c = '+' ∨ c = '-' := by
  obtain ⟨negative, ds, n, hsplit, hread, -⟩ := readInt?_eq_some h
  have hdigits := isDigit_of_readNat? hread
  unfold splitSign at hsplit
  split at hsplit <;> cases hsplit <;> simp_all

theorem readUnsigned?_of_readInt? {i : ℤ} (h : readInt? cs = some i) (hpos : 0 < i) :
    readUnsigned? cs = some i.toNat := by
  obtain ⟨negative, ds, n, hsplit, hread, rfl⟩ := readInt?_eq_some h
  unfold splitSign at hsplit
  unfold readUnsigned?
  split at hsplit <;> cases hsplit
  · simp only [if_true] at hpos
    omega
  · simpa using hread
  · split
    next hplus => exact absurd rfl (hplus _)
    · simpa using hread

theorem readInt?_eq_none {c : Char} (hc : IsMark c) (hmem : c ∈ cs) : readInt? cs = none := by
  refine Option.eq_none_iff_forall_ne_some.mpr fun i hi => ?_
  have hallowed := isDigit_or_sign_of_readInt? hi c hmem
  simp [hc.not_digit, hc.not_sign] at hallowed

theorem readUnsigned?_eq_none {c : Char} (hc : IsMark c) (hmem : c ∈ cs) :
    readUnsigned? cs = none := by
  refine Option.eq_none_iff_forall_ne_some.mpr fun n hn => ?_
  have hint := readInt?_of_readUnsigned? hn
  rw [readInt?_eq_none hc hmem] at hint
  cases hint

/-! ## What is read is a numeral -/

theorem digitChar_of_charDigit? {c : Char} {d : Nat} (h : charDigit? c = some d) :
    d < 10 ∧ digitChar d = c := by
  unfold charDigit? at h
  split at h
  next hrange =>
    cases h
    have hlow : 48 ≤ c.toNat := hrange.1
    have hhigh : c.toNat ≤ 57 := hrange.2
    refine ⟨by omega, ?_⟩
    rw [digitChar, Nat.add_sub_cancel' hlow, Char.ofNat_toNat]
  · cases h

theorem exists_digit_of_isDigit {c : Char} (h : isDigit c = true) :
    ∃ d, d < 10 ∧ digitChar d = c :=
  ⟨_, digitChar_of_charDigit? (if_pos (of_decide_eq_true h))⟩

theorem exists_digits (h : ∀ c ∈ cs, isDigit c = true) :
    ∃ ds : List Nat, (∀ d ∈ ds, d < 10) ∧ ds.map digitChar = cs := by
  induction cs with
  | nil => exact ⟨[], by simp⟩
  | cons c cs ih =>
      obtain ⟨hc, hcs⟩ := List.forall_mem_cons.mp h
      obtain ⟨d, hd, rfl⟩ := exists_digit_of_isDigit hc
      obtain ⟨ds, hds, rfl⟩ := ih hcs
      exact ⟨d :: ds, List.forall_mem_cons.mpr ⟨hd, hds⟩, rfl⟩

theorem exists_span (cs : List Char) :
    ∃ (ds : List Nat) (rest : List Char), (∀ d ∈ ds, d < 10) ∧ NoDigit rest ∧
      ds.map digitChar ++ rest = cs := by
  have htake : ∀ c ∈ cs.takeWhile isDigit, isDigit c = true := fun _ => List.mem_takeWhile_imp
  obtain ⟨ds, hds, htext⟩ := exists_digits htake
  refine ⟨ds, cs.dropWhile isDigit, hds, ?_, ?_⟩
  · intro c hc
    simpa [hc] using List.head?_dropWhile_not isDigit cs
  · rw [htext, List.takeWhile_append_dropWhile]

theorem exists_signText (cs : List Char) :
    ∃ sign, SignText sign (splitSign cs).1 ∧ sign ++ (splitSign cs).2 = cs := by
  unfold splitSign
  split
  · exact ⟨_, .minus, rfl⟩
  · exact ⟨_, .plus, rfl⟩
  · exact ⟨_, .missing, rfl⟩

theorem exists_fractionText (cs : List Char) :
    ∃ pointed ds rest, FractionText pointed ds ∧ (∀ d ∈ ds, d < 10) ∧ pointed ++ rest = cs ∧
      splitFraction cs = (ds.map digitChar, rest) := by
  unfold splitFraction
  split
  next cs =>
    obtain ⟨ds, rest, hds, hrest, rfl⟩ := exists_span cs
    obtain ⟨htake, hdrop⟩ := span_digits hds hrest
    exact ⟨_, ds, rest, .pointed, hds, rfl, by rw [htake, hdrop]⟩
  · exact ⟨[], [], cs, .missing, nofun, rfl, rfl⟩

theorem readNat?_digits_iff {n : Nat} (h : ∀ d ∈ ds, d < 10) :
    readNat? (ds.map digitChar) = some n ↔ ds ≠ [] ∧ ofDigits ds = n := by
  by_cases hne : ds = []
  · subst hne
    simp [readNat?]
  · rw [readNat?_digits h hne, Option.some.injEq, and_iff_right hne]

theorem integerText_of_readInt? {i : ℤ} (h : readInt? cs = some i) : IntegerText cs i := by
  obtain ⟨negative, body, n, hsplit, hread, rfl⟩ := readInt?_eq_some h
  obtain ⟨ds, hds, rfl⟩ := exists_digits (isDigit_of_readNat? hread)
  obtain ⟨hne, rfl⟩ := (readNat?_digits_iff hds).mp hread
  obtain ⟨sign, hsign, htext⟩ := exists_signText cs
  rw [hsplit] at hsign htext
  rw [← htext]
  exact .intro hsign hds hne

theorem powerText_of_readExponent? {e : ℤ} (h : readExponent? cs = some e) : PowerText cs e := by
  cases cs with
  | nil =>
      cases h
      exact .missing
  | cons c cs =>
      rw [readExponent?] at h
      split at h
      next hmark => exact .marked hmark (integerText_of_readInt? h)
      · cases h

theorem numeralText_of_read? {n : Numeral} (h : Numeral.read? cs = some n) :
    NumeralText cs n.value := by
  obtain ⟨sign, hsign, htext⟩ := exists_signText cs
  obtain ⟨whole, rest, hwhole, hrest, hbody⟩ := exists_span (splitSign cs).2
  obtain ⟨pointed, fraction, power, hpointed, hfraction, rfl, hsplit⟩ := exists_fractionText rest
  obtain ⟨htake, hdrop⟩ := span_digits hwhole hrest
  simp only [Numeral.read?, ← hbody, htake, hdrop, hsplit] at h
  split at h
  next significand e hread hexponent =>
    cases h
    have hdigits := List.forall_mem_append.mpr ⟨hwhole, hfraction⟩
    rw [← List.map_append, readNat?_digits_iff hdigits] at hread
    obtain ⟨hne, rfl⟩ := hread
    have hnumeral := NumeralText.intro hsign hdigits hne hpointed
      (powerText_of_readExponent? hexponent)
    rw [hbody, htext] at hnumeral
    simpa [Numeral.value] using hnumeral
  · cases h

end SchemaSieve.Decimal
