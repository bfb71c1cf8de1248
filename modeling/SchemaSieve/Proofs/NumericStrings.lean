import Mathlib.Computability.RegularExpressions
import SchemaSieve.Coercion.Basic
import SchemaSieve.Proofs.DoubleReading
import SchemaSieve.Proofs.NumberTexts

/-!
# Numeric strings

Which strings are numeric is said by one regular expression, and its words are the numerals.  The
general reader of doubles reads all of them and some words besides, the readers of integers read
fewer.  Coercion puts them together so that only numeric strings become numbers, although the
reader of unsigned integers is asked without a look at the expression.
-/

namespace SchemaSieve

namespace Decimal

open RegularExpression

/-! ## The expression -/

def anyOf : List Char → RegularExpression Char
  | [] => 0
  | c :: cs => char c + anyOf cs

def optional (p : RegularExpression Char) : RegularExpression Char := p + 1

def digitPattern : RegularExpression Char := anyOf ((List.range 10).map digitChar)

def runPattern : RegularExpression Char := digitPattern * digitPattern.star

def signPattern : RegularExpression Char := optional (anyOf ['+', '-'])

def pointPattern : RegularExpression Char :=
  runPattern * optional (char '.' * digitPattern.star) + char '.' * runPattern

def powerPattern : RegularExpression Char :=
  optional (anyOf ['e', 'E'] * (signPattern * runPattern))

/-- The expression of numeric strings, `[+-]?(?:[0-9]+(?:\.[0-9]*)?|\.[0-9]+)(?:[eE][+-]?[0-9]+)?`,
for whole texts. -/
def numericPattern : RegularExpression Char := signPattern * (pointPattern * powerPattern)

/-! ## Its words -/

variable {cs : List Char} {p : RegularExpression Char}

theorem mem_char {c : Char} : cs ∈ (char c).matches' ↔ cs = [c] := Iff.rfl

theorem mem_anyOf {allowed : List Char} :
    cs ∈ (anyOf allowed).matches' ↔ ∃ c ∈ allowed, [c] = cs := by
  induction allowed with
  | nil => simp [anyOf, Language.notMem_zero]
  | cons c allowed ih =>
      rw [anyOf, matches'_add, Language.mem_add, mem_char, ih]
      simp [eq_comm]

theorem mem_optional : cs ∈ (optional p).matches' ↔ cs = [] ∨ cs ∈ p.matches' := by
  rw [optional, matches'_add, matches'_epsilon, Language.mem_add, Language.mem_one, or_comm]

theorem mem_digitPattern : cs ∈ digitPattern.matches' ↔ ∃ d < 10, [digitChar d] = cs := by
  simp [digitPattern, mem_anyOf]

theorem mem_digitPattern_star :
    cs ∈ digitPattern.star.matches' ↔
      ∃ ds : List Nat, (∀ d ∈ ds, d < 10) ∧ ds.map digitChar = cs := by
  rw [matches'_star, Language.mem_kstar]
  constructor
  · rintro ⟨words, rfl, hwords⟩
    refine exists_digits fun c hc => ?_
    obtain ⟨word, hword, hmem⟩ := List.mem_flatten.mp hc
    obtain ⟨d, hd, rfl⟩ := mem_digitPattern.mp (hwords word hword)
    rw [List.mem_singleton.mp hmem, isDigit_digitChar hd]
  · rintro ⟨ds, hds, rfl⟩
    refine ⟨ds.map fun d => [digitChar d], ?_, ?_⟩
    · rw [List.map_eq_flatMap, List.flatMap_def]
    · exact List.forall_mem_map.mpr fun d hd => mem_digitPattern.mpr ⟨d, hds d hd, rfl⟩

theorem mem_runPattern :
    cs ∈ runPattern.matches' ↔
      ∃ ds : List Nat, (∀ d ∈ ds, d < 10) ∧ ds ≠ [] ∧ ds.map digitChar = cs := by
  rw [runPattern, matches'_mul, Language.mem_mul]
  constructor
  · rintro ⟨_, hfirst, _, hrest, rfl⟩
    obtain ⟨d, hd, rfl⟩ := mem_digitPattern.mp hfirst
    obtain ⟨ds, hds, rfl⟩ := mem_digitPattern_star.mp hrest
    exact ⟨d :: ds, List.forall_mem_cons.mpr ⟨hd, hds⟩, by simp, rfl⟩
  · rintro ⟨ds, hds, hne, rfl⟩
    obtain ⟨d, ds, rfl⟩ := List.exists_cons_of_ne_nil hne
    obtain ⟨hd, hds⟩ := List.forall_mem_cons.mp hds
    exact ⟨_, mem_digitPattern.mpr ⟨d, hd, rfl⟩, _, mem_digitPattern_star.mpr ⟨ds, hds, rfl⟩, rfl⟩

theorem mem_signPattern : cs ∈ signPattern.matches' ↔ ∃ negative, SignText cs negative := by
  rw [signPattern, mem_optional, mem_anyOf]
  constructor
  · rintro (rfl | ⟨c, hc, rfl⟩)
    · exact ⟨_, .missing⟩
    · simp only [List.mem_cons, List.not_mem_nil, or_false] at hc
      rcases hc with rfl | rfl
      · exact ⟨_, .plus⟩
      · exact ⟨_, .minus⟩
  · rintro ⟨_, hsign⟩
    cases hsign <;> simp

theorem mem_signPattern_mul_runPattern :
    cs ∈ (signPattern * runPattern).matches' ↔ ∃ n, IntegerText cs n := by
  rw [matches'_mul, Language.mem_mul]
  constructor
  · rintro ⟨_, hsign, _, hrun, rfl⟩
    obtain ⟨negative, hsign⟩ := mem_signPattern.mp hsign
    obtain ⟨ds, hds, hne, rfl⟩ := mem_runPattern.mp hrun
    exact ⟨_, .intro hsign hds hne⟩
  · rintro ⟨_, hsign, hds, hne⟩
    exact ⟨_, mem_signPattern.mpr ⟨_, hsign⟩, _, mem_runPattern.mpr ⟨_, hds, hne, rfl⟩, rfl⟩

theorem mem_powerPattern : cs ∈ powerPattern.matches' ↔ ∃ e, PowerText cs e := by
  rw [powerPattern, mem_optional, matches'_mul, Language.mem_mul]
  constructor
  · rintro (rfl | ⟨_, hmark, _, hinteger, rfl⟩)
    · exact ⟨_, .missing⟩
    · obtain ⟨c, hc, rfl⟩ := mem_anyOf.mp hmark
      obtain ⟨e, hinteger⟩ := mem_signPattern_mul_runPattern.mp hinteger
      exact ⟨e, .marked (by simpa using hc) hinteger⟩
  · rintro ⟨e, hpower⟩
    cases hpower with
    | missing => exact .inl rfl
    | marked isMark integer =>
        exact .inr ⟨_, mem_anyOf.mpr ⟨_, by simpa using isMark, rfl⟩, _,
          mem_signPattern_mul_runPattern.mpr ⟨e, integer⟩, rfl⟩

theorem mem_pointPattern :
    cs ∈ pointPattern.matches' ↔
      ∃ (whole fraction : List Nat) (pointed : List Char), (∀ d ∈ whole ++ fraction, d < 10) ∧
        whole ++ fraction ≠ [] ∧ FractionText pointed fraction ∧
        whole.map digitChar ++ pointed = cs := by
  rw [pointPattern, matches'_add, Language.mem_add, matches'_mul, matches'_mul, Language.mem_mul,
    Language.mem_mul]
  constructor
  · rintro (⟨_, hrun, _, htail, rfl⟩ | ⟨_, hmark, _, hrun, rfl⟩)
    · obtain ⟨whole, hwhole, hne, rfl⟩ := mem_runPattern.mp hrun
      rw [mem_optional, matches'_mul, Language.mem_mul] at htail
      obtain rfl | ⟨_, hmark, _, hrun, rfl⟩ := htail
      · exact ⟨whole, [], [], by simpa using hwhole, by simpa using hne, .missing, rfl⟩
      · obtain rfl := mem_char.mp hmark
        obtain ⟨fraction, hfraction, rfl⟩ := mem_digitPattern_star.mp hrun
        exact ⟨whole, fraction, _, List.forall_mem_append.mpr ⟨hwhole, hfraction⟩, by simp [hne],
          .pointed, rfl⟩
    · obtain rfl := mem_char.mp hmark
      obtain ⟨fraction, hfraction, hne, rfl⟩ := mem_runPattern.mp hrun
      exact ⟨[], fraction, _, hfraction, hne, .pointed, rfl⟩
  · rintro ⟨whole, fraction, pointed, hdigits, hne, hpointed, rfl⟩
    obtain ⟨hwhole, hfraction⟩ := List.forall_mem_append.mp hdigits
    by_cases hempty : whole = []
    · subst hempty
      cases hpointed with
      | missing => exact absurd rfl hne
      | pointed =>
          exact .inr ⟨_, mem_char.mpr rfl, _, mem_runPattern.mpr ⟨fraction, hfraction, hne, rfl⟩, rfl⟩
    · refine .inl ⟨_, mem_runPattern.mpr ⟨whole, hwhole, hempty, rfl⟩, _, ?_, rfl⟩
      rw [mem_optional, matches'_mul, Language.mem_mul]
      cases hpointed with
      | missing => exact .inl rfl
      | pointed =>
          exact .inr ⟨_, mem_char.mpr rfl, _, mem_digitPattern_star.mpr ⟨fraction, hfraction, rfl⟩,
            rfl⟩

theorem mem_numericPattern : cs ∈ numericPattern.matches' ↔ ∃ q, NumeralText cs q := by
  rw [numericPattern, matches'_mul, Language.mem_mul, matches'_mul]
  constructor
  · rintro ⟨_, hsign, _, hbody, rfl⟩
    obtain ⟨_, hpoint, _, hpower, rfl⟩ := Language.mem_mul.mp hbody
    obtain ⟨negative, hsign⟩ := mem_signPattern.mp hsign
    obtain ⟨whole, fraction, pointed, hdigits, hne, hpointed, rfl⟩ := mem_pointPattern.mp hpoint
    obtain ⟨e, hpower⟩ := mem_powerPattern.mp hpower
    rw [List.append_assoc]
    exact ⟨_, .intro hsign hdigits hne hpointed hpower⟩
  · rintro ⟨_, hsign, hdigits, hne, hpointed, hpower⟩
    refine ⟨_, mem_signPattern.mpr ⟨_, hsign⟩, _, ?_, rfl⟩
    rw [← List.append_assoc]
    exact Language.append_mem_mul (mem_pointPattern.mpr ⟨_, _, _, hdigits, hne, hpointed, rfl⟩)
      (mem_powerPattern.mpr ⟨_, hpower⟩)

theorem isNumeric_iff {s : String} : isNumeric s = true ↔ ∃ q, NumeralText s.toList q := by
  rw [isNumeric, Option.isSome_iff_exists]
  constructor
  · rintro ⟨n, hread⟩
    exact ⟨_, numeralText_of_read? hread⟩
  · rintro ⟨q, htext⟩
    obtain ⟨n, hread, -⟩ := htext.read?
    exact ⟨n, hread⟩

theorem isAscii_of_isNumeralChar {c : Char} (h : isNumeralChar c = true) : c.toNat < 128 := by
  rw [isNumeralChar, Bool.or_eq_true, decide_eq_true_iff] at h
  rcases h with hdigit | hmark
  · obtain ⟨d, hd, rfl⟩ := exists_digit_of_isDigit hdigit
    rw [toNat_digitChar hd]
    omega
  · simp only [List.mem_cons, List.not_mem_nil, or_false] at hmark
    rcases hmark with rfl | rfl | rfl | rfl | rfl <;> decide

end Decimal

namespace Coercion

open Decimal Double

/-! ## Strings that become numbers -/

variable {s : String}

theorem isNumeric_of_toInteger? (h : (toInteger? (.string s)).isSome = true) :
    isNumeric s = true := by
  rw [toInteger?, integerOfText?_eq] at h
  by_contra hnot
  rw [if_neg hnot] at h
  cases h

theorem isNumeric_of_toFloat? (h : (toFloat? (.string s)).isSome = true) :
    isNumeric s = true := by
  rw [toFloat?_string] at h
  by_contra hnot
  rw [if_neg hnot] at h
  cases h

theorem isNumeric_of_toUnsigned? (h : (toUnsigned? (.string s)).isSome = true) :
    isNumeric s = true := by
  rw [toUnsigned?] at h
  cases hread : readUnsigned? s.toList with
  | none => simp [hread] at h
  | some n => rw [isNumeric, read?_of_readUnsigned? hread, Option.isSome_some]

theorem isNumeric_of_accepts {tag : ScalarTag} (htag : tag = .int ∨ tag = .float)
    (h : accepts tag (.string s) = true) : isNumeric s = true := by
  rw [accepts] at h
  rcases htag with rfl | rfl
  · rw [coerce?] at h
    split at h
    next i hinteger => exact isNumeric_of_toInteger? (by rw [hinteger, Option.isSome_some])
    · rw [Option.isSome_map] at h
      exact isNumeric_of_toUnsigned? h
  · rw [coerce?, Option.isSome_map] at h
    exact isNumeric_of_toFloat? h

/-- A string is numeric if it matches the expression as a whole, that is if it is a numeral: a
sign, which may be missing, digits with a point before, among or behind them or with none, and
perhaps a power of ten, all in ASCII.  As a double it is then read as the nearest one, and besides
numeric strings only words are read so.  What is accepted under `INT` or `FLOAT` is numeric, also
where the reader of unsigned integers decides. -/
theorem numeric_strings (s : String) :
    (isNumeric s = true ↔ s.toList ∈ numericPattern.matches') ∧
    (isNumeric s = true ↔ ∃ q, NumeralText s.toList q) ∧
    (isNumeric s = true → ∀ c ∈ s.toList, c.toNat < 128) ∧
    (∀ q, NumeralText s.toList q → ∃ x, parse? s = some x ∧ IsRounded q x) ∧
    ((parse? s).isSome = true ↔ isNumeric s = true ∨ isWord s = true) ∧
    (∀ tag, tag = .int ∨ tag = .float → accepts tag (.string s) = true → isNumeric s = true) ∧
    ((toUnsigned? (.string s)).isSome = true → isNumeric s = true) := by
  refine ⟨?_, isNumeric_iff, ?_, fun q => parse?_of_numeralText, isSome_parse?_iff s,
    fun tag => isNumeric_of_accepts, isNumeric_of_toUnsigned?⟩
  · rw [isNumeric_iff, mem_numericPattern]
  · intro h c hc
    obtain ⟨q, htext⟩ := isNumeric_iff.mp h
    exact isAscii_of_isNumeralChar (htext.isNumeralChar c hc)

theorem numeric_strings_unsigned :
    NumeralText "+18446744073709551615".toList 18446744073709551615 ∧
      toInteger? (.string "+18446744073709551615") = none ∧
      accepts .int (.string "+18446744073709551615") = true ∧
      isNumeric "+18446744073709551615" = true ∧
      "+18446744073709551615".toList ∈ numericPattern.matches' ∧ '+'.toNat < 128 ∧
      ∃ x, parse? "+18446744073709551615" = some x ∧ IsRounded 18446744073709551615 x := by
  obtain ⟨hpattern, -, hascii, hparse, -, haccepts, hunsigned⟩ :=
    numeric_strings "+18446744073709551615"
  have htext : NumeralText "+18446744073709551615".toList 18446744073709551615 :=
    (@IntegerText.intro ['+'] false [1, 8, 4, 4, 6, 7, 4, 4, 0, 7, 3, 7, 0, 9, 5, 5, 1, 6, 1, 5]
      .plus (by decide) (by simp)).numeralText
  have haccepted : accepts .int (.string "+18446744073709551615") = true := by decide +kernel
  have hnumeric := hunsigned (by decide +kernel)
  exact ⟨htext, by decide +kernel, haccepted, haccepts .int (.inl rfl) haccepted,
    hpattern.mp hnumeric, hascii hnumeric '+' (by decide), hparse _ htext⟩

end Coercion

end SchemaSieve
