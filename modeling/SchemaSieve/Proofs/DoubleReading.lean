import SchemaSieve.Proofs.IntegersOfTexts
import SchemaSieve.Proofs.NumeralTexts

/-!
# Reading doubles in general

Doubles in general are read in one pass: digits are taken off the front one at a time, through a
point, then a power of ten, and nothing may be left.  Besides numbers there are the words for the
infinities and for no number, in any case.  So a text is read that is a numeral or such a word,
and a numeral is read as the double nearest to it, which is all that coercion takes from here.
-/

namespace SchemaSieve

namespace Double

open Decimal

/-! ## Numbers in one pass -/

/-- Digits taken off the front: the number read up to their end, how many they are, and what
follows them. -/
structure Run where
  value : Nat
  length : Nat
  rest : List Char

def takeRun (m : Nat) : List Char → Run
  | [] => ⟨m, 0, []⟩
  | c :: cs =>
      match charDigit? c with
      | some d =>
          let run := takeRun (10 * m + d) cs
          { run with length := run.length + 1 }
      | none => ⟨m, 0, c :: cs⟩

def takeFraction (m : Nat) : List Char → Run
  | '.' :: cs => takeRun m cs
  | cs => ⟨m, 0, cs⟩

def takeInt? (cs : List Char) : Option (Int × List Char) :=
  let (negative, cs) := splitSign cs
  let run := takeRun 0 cs
  if run.length = 0 then none
  else some (if negative then -(run.value : Int) else run.value, run.rest)

def takePower? : List Char → Option (Int × List Char)
  | [] => some (0, [])
  | c :: cs => if c = 'e' ∨ c = 'E' then takeInt? cs else some (0, c :: cs)

def whole? {α : Type} : α × List Char → Option α
  | (a, []) => some a
  | (_, _ :: _) => none

def number? (cs : List Char) : Option (Nat × Int) :=
  let whole := takeRun 0 cs
  let fraction := takeFraction whole.value whole.rest
  if whole.length + fraction.length = 0 then none
  else ((takePower? fraction.rest).bind whole?).map fun e =>
    (fraction.value, e - fraction.length)

/-! ## Words -/

def word? (negative : Bool) (cs : List Char) : Option Double :=
  let word := String.ofList (cs.map Char.toLower)
  if word = "inf" ∨ word = "infinity" then some (infinity negative)
  else if word = "nan" then some (if negative then nan.neg else nan)
  else none

def parse? (s : String) : Option Double :=
  let (negative, cs) := splitSign s.toList
  match number? cs with
  | some (m, e) => some (ofDecimal negative m e)
  | none => word? negative cs

/-! ## The pass reads numerals -/

variable {cs rest : List Char} {ds : List Nat}

theorem takeRun_of_noDigit (h : NoDigit cs) (m : Nat) : takeRun m cs = ⟨m, 0, cs⟩ := by
  cases cs with
  | nil => rfl
  | cons c cs =>
      have hnone : charDigit? c = none := if_neg (of_decide_eq_false (h c rfl))
      rw [takeRun, hnone]

theorem takeRun_digits (hds : ∀ d ∈ ds, d < 10) (hrest : NoDigit rest) (m : Nat) :
    takeRun m (ds.map digitChar ++ rest) =
      ⟨m * 10 ^ ds.length + ofDigits ds, ds.length, rest⟩ := by
  induction ds generalizing m with
  | nil => simp [takeRun_of_noDigit hrest, ofDigits]
  | cons d ds ih =>
      obtain ⟨hd, hds⟩ := List.forall_mem_cons.mp hds
      simp only [List.map_cons, List.cons_append, takeRun, charDigit?_digitChar hd, ih hds,
        ofDigits_cons, List.length_cons, Run.mk.injEq, and_self, and_true]
      ring

theorem takeFraction_eq (m : Nat) (cs : List Char) :
    ∃ (ds : List Nat) (rest : List Char), (∀ d ∈ ds, d < 10) ∧
      splitFraction cs = (ds.map digitChar, rest) ∧
      takeFraction m cs = ⟨m * 10 ^ ds.length + ofDigits ds, ds.length, rest⟩ := by
  unfold splitFraction takeFraction
  split
  next cs =>
    obtain ⟨ds, rest, hds, hrest, rfl⟩ := exists_span cs
    obtain ⟨htake, hdrop⟩ := span_digits hds hrest
    exact ⟨ds, rest, hds, by rw [htake, hdrop], takeRun_digits hds hrest m⟩
  · exact ⟨[], cs, nofun, rfl, by simp [ofDigits]⟩

theorem takeInt?_whole (cs : List Char) : (takeInt? cs).bind whole? = readInt? cs := by
  obtain ⟨ds, rest, hds, hrest, hbody⟩ := exists_span (splitSign cs).2
  simp only [takeInt?, readInt?, ← hbody, takeRun_digits hds hrest]
  cases rest with
  | nil =>
      by_cases hne : ds = []
      · simp [hne, readNat?]
      · simp [hne, readNat?_digits hds hne, whole?]
  | cons c cs =>
      have hnone : readNat? (ds.map digitChar ++ c :: cs) = none := by
        refine Option.eq_none_iff_forall_ne_some.mpr fun n hn => ?_
        have hdigit := isDigit_of_readNat? hn c (by simp)
        rw [hrest c rfl] at hdigit
        cases hdigit
      rw [hnone]
      split <;> rfl

theorem takePower?_whole (cs : List Char) :
    (takePower? cs).bind whole? = readExponent? cs := by
  cases cs with
  | nil => rfl
  | cons c cs =>
      rw [takePower?, readExponent?]
      split
      · exact takeInt?_whole cs
      · rfl

theorem read?_eq_number? (cs : List Char) :
    Numeral.read? cs = (number? (splitSign cs).2).map fun n => ⟨(splitSign cs).1, n.1, n.2⟩ := by
  obtain ⟨whole, rest, hwhole, hrest, hbody⟩ := exists_span (splitSign cs).2
  obtain ⟨htake, hdrop⟩ := span_digits hwhole hrest
  obtain ⟨fraction, power, hfraction, hsplit, hpass⟩ := takeFraction_eq (ofDigits whole) rest
  have hdigits := List.forall_mem_append.mpr ⟨hwhole, hfraction⟩
  simp only [Numeral.read?, number?, ← hbody, htake, hdrop, hsplit, takeRun_digits hwhole hrest,
    Nat.zero_mul, Nat.zero_add, hpass, takePower?_whole, ← ofDigits_append, ← List.map_append]
  by_cases hne : whole ++ fraction = []
  · obtain ⟨rfl, rfl⟩ := List.append_eq_nil_iff.mp hne
    simp [readNat?]
  · rw [readNat?_digits hdigits hne]
    have hlength : ¬ whole.length + fraction.length = 0 := by
      rwa [← List.length_append, List.length_eq_zero_iff]
    rw [if_neg hlength]
    cases readExponent? power with
    | none => rfl
    | some e => simp

/-! ## Which texts are read -/

def isWord (s : String) : Bool :=
  String.ofList ((splitSign s.toList).2.map Char.toLower) ∈ ["inf", "infinity", "nan"]

theorem isSome_word?_iff (negative : Bool) (cs : List Char) :
    (word? negative cs).isSome = true ↔
      String.ofList (cs.map Char.toLower) ∈ ["inf", "infinity", "nan"] := by
  simp only [word?, List.mem_cons, List.not_mem_nil, or_false, ← or_assoc]
  split_ifs <;> simp_all

theorem parse?_eq (s : String) :
    parse? s = ((Numeral.read? s.toList).map Coercion.nearest).or
      (word? (splitSign s.toList).1 (splitSign s.toList).2) := by
  simp only [parse?, read?_eq_number?]
  cases number? (splitSign s.toList).2 <;> rfl

theorem isSome_parse?_iff (s : String) :
    (parse? s).isSome = true ↔ isNumeric s = true ∨ isWord s = true := by
  rw [parse?_eq, Option.isSome_or, Bool.or_eq_true, Option.isSome_map, isSome_word?_iff, isNumeric,
    isWord, decide_eq_true_iff]

example : isWord "-Infinity" = true ∧ isNumeric "-Infinity" = false := by decide

end Double

namespace Coercion

open Decimal Double

variable {s : String}

/-- Numeric strings are read as doubles, and to the nearest one. -/
theorem parse?_of_numeralText {q : ℚ} (h : NumeralText s.toList q) :
    ∃ x, parse? s = some x ∧ IsRounded q x := by
  obtain ⟨n, hread, rfl⟩ := h.read?
  exact ⟨nearest n, by rw [parse?_eq, hread]; rfl, isRounded_nearest n⟩

theorem integerOfText?_eq (s : String) :
    integerOfText? s =
      if isNumeric s then ((readInt? s.toList).bind signed?).or ((parse? s).bind integral?)
      else none := by
  rw [integerOfText?, isNumeric, parse?_eq]
  cases Numeral.read? s.toList with
  | none => rfl
  | some n =>
      cases (readInt? s.toList).bind signed? <;> rfl

theorem toFloat?_string (s : String) :
    toFloat? (.string s) = if isNumeric s then (parse? s).bind finite? else none := by
  rw [toFloat?, isNumeric, parse?_eq]
  cases Numeral.read? s.toList <;> rfl

end Coercion

end SchemaSieve
