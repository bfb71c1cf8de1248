import Mathlib.Data.List.Induction
import Mathlib.Data.List.TakeWhile
import Mathlib.Tactic.Ring
import SchemaSieve.Decimal.Numeral

/-!
# Runs of digits as numerals

What is read as an unsigned integer is a run of digits after at most a plus sign.
It reads as the same number with a sign allowed, and as a numeral without
fraction or exponent.
-/

namespace SchemaSieve.Decimal

theorem isDigit_of_charDigit? {c : Char} {d : Nat} (h : charDigit? c = some d) :
    isDigit c = true := by
  simp only [charDigit?] at h
  split at h
  · rename_i hrange
    exact decide_eq_true hrange
  · cases h

theorem isDigit_of_mapM_charDigit? {cs : List Char} {ds : List Nat}
    (h : cs.mapM charDigit? = some ds) : ∀ c ∈ cs, isDigit c = true := by
  induction cs generalizing ds with
  | nil => simp
  | cons c cs ih =>
      simp only [List.mapM_cons, bind, Option.bind_eq_some_iff] at h
      obtain ⟨d, hd, ds', hds', -⟩ := h
      exact List.forall_mem_cons.mpr ⟨isDigit_of_charDigit? hd, ih hds'⟩

theorem ne_nil_of_readNat? {cs : List Char} {n : Nat} (h : readNat? cs = some n) :
    cs ≠ [] := by
  rintro rfl
  simp [readNat?] at h

theorem isDigit_of_readNat? {cs : List Char} {n : Nat} (h : readNat? cs = some n) :
    ∀ c ∈ cs, isDigit c = true := by
  rw [readNat?, if_neg (ne_nil_of_readNat? h), Option.map_eq_some_iff] at h
  obtain ⟨ds, hds, -⟩ := h
  exact isDigit_of_mapM_charDigit? hds

theorem splitSign_of_isDigit {c : Char} {cs : List Char} (h : isDigit c = true) :
    splitSign (c :: cs) = (false, c :: cs) := by
  have hminus : c ≠ '-' := by rintro rfl; cases h
  have hplus : c ≠ '+' := by rintro rfl; cases h
  simp [splitSign, hminus, hplus]

theorem splitSign_of_readUnsigned? {cs : List Char} {n : Nat}
    (h : readUnsigned? cs = some n) :
    ∃ ds, splitSign cs = (false, ds) ∧ readNat? ds = some n := by
  unfold readUnsigned? at h
  split at h
  · exact ⟨_, rfl, h⟩
  · cases cs with
    | nil => simp [readNat?] at h
    | cons c cs =>
        have hdigit := isDigit_of_readNat? h c (List.mem_cons_self ..)
        exact ⟨c :: cs, splitSign_of_isDigit hdigit, h⟩

theorem readInt?_of_readUnsigned? {cs : List Char} {n : Nat}
    (h : readUnsigned? cs = some n) : readInt? cs = some (n : Int) := by
  obtain ⟨ds, hsign, hread⟩ := splitSign_of_readUnsigned? h
  simp [readInt?, hsign, hread]

theorem read?_of_splitSign {cs ds : List Char} {negative : Bool} {n : Nat}
    (hsign : splitSign cs = (negative, ds)) (hread : readNat? ds = some n) :
    Numeral.read? cs = some ⟨negative, n, 0⟩ := by
  have hdigits := isDigit_of_readNat? hread
  have htake : ds.takeWhile isDigit = ds := List.takeWhile_eq_self_iff.mpr hdigits
  have hdrop : ds.dropWhile isDigit = [] := List.dropWhile_eq_nil_iff.mpr hdigits
  simp [Numeral.read?, hsign, htake, hdrop, splitFraction, readExponent?, hread]

theorem read?_of_readUnsigned? {cs : List Char} {n : Nat} (h : readUnsigned? cs = some n) :
    Numeral.read? cs = some ⟨false, n, 0⟩ := by
  obtain ⟨ds, hsign, hread⟩ := splitSign_of_readUnsigned? h
  exact read?_of_splitSign hsign hread

theorem readInt?_eq_some {cs : List Char} {i : Int} (h : readInt? cs = some i) :
    ∃ negative ds n, splitSign cs = (negative, ds) ∧ readNat? ds = some n ∧
      i = if negative then -(n : Int) else n := by
  cases hsign : splitSign cs with
  | mk negative ds =>
      simp only [readInt?, hsign, bind, pure, Option.map_bind, Option.bind_eq_some_iff] at h
      obtain ⟨n, hread, hvalue⟩ := h
      exact ⟨negative, ds, n, rfl, hread, (Option.some.inj hvalue).symm⟩

theorem read?_of_readInt? {cs : List Char} {i : Int} (h : readInt? cs = some i) :
    ∃ negative, Numeral.read? cs = some ⟨negative, i.natAbs, 0⟩ := by
  obtain ⟨negative, ds, n, hsign, hread, rfl⟩ := readInt?_eq_some h
  refine ⟨negative, ?_⟩
  rw [read?_of_splitSign hsign hread]
  cases negative <;> simp

/-! ## Written numbers -/

theorem digits_lt (n : Nat) : ∀ d ∈ digits n, d < 10 := by
  induction n using digits.induct with
  | case1 n h =>
      rw [digits, if_pos h]
      simpa using h
  | case2 n h ih =>
      rw [digits, if_neg h]
      intro d hd
      rcases List.mem_append.mp hd with hd | hd
      · exact ih d hd
      · rw [List.mem_singleton.mp hd]
        exact Nat.mod_lt n (by omega)

theorem length_digits_pos (n : Nat) : 0 < (digits n).length :=
  List.length_pos_iff.mpr (digits_ne_nil n)

theorem lt_pow_length_digits (n : Nat) : n < 10 ^ (digits n).length := by
  induction n using digits.induct with
  | case1 n h => simp [digits, h]
  | case2 n h ih =>
      rw [digits, if_neg h, List.length_append, List.length_singleton, Nat.pow_succ]
      omega

theorem pow_length_digits_le {n : Nat} (hn : 0 < n) : 10 ^ ((digits n).length - 1) ≤ n := by
  induction n using digits.induct with
  | case1 n h =>
      rw [digits, if_pos h]
      exact hn
  | case2 n h ih =>
      have hle := ih (by omega)
      have hlength := length_digits_pos (n / 10)
      have hpow : 10 ^ (digits (n / 10)).length = 10 * 10 ^ ((digits (n / 10)).length - 1) := by
        rw [← Nat.pow_succ', Nat.succ_eq_add_one, Nat.sub_add_cancel hlength]
      rw [digits, if_neg h, List.length_append, List.length_singleton, Nat.add_sub_cancel, hpow]
      omega

theorem exists_head_digits {n : Nat} (hn : 0 < n) :
    ∃ d ds, digits n = d :: ds ∧ d ≠ 0 := by
  induction n using digits.induct with
  | case1 n h => exact ⟨n, [], by rw [digits, if_pos h], by omega⟩
  | case2 n h ih =>
      obtain ⟨d, ds, hds, hd⟩ := ih (by omega)
      exact ⟨d, ds ++ [n % 10], by rw [digits, if_neg h, hds, List.cons_append], hd⟩

theorem ofDigits_append (ds es : List Nat) :
    ofDigits (ds ++ es) = ofDigits ds * 10 ^ es.length + ofDigits es := by
  induction es using List.reverseRecOn with
  | nil => simp [ofDigits]
  | append_singleton es e ih =>
      rw [← List.append_assoc, ofDigits_concat, ofDigits_concat, ih, List.length_append,
        List.length_singleton, Nat.pow_succ]
      ring

theorem ofDigits_cons (d : Nat) (ds : List Nat) :
    ofDigits (d :: ds) = d * 10 ^ ds.length + ofDigits ds := by
  have hsingle : ofDigits [d] = d := by simp [ofDigits]
  rw [← List.singleton_append, ofDigits_append, hsingle]

theorem ofDigits_replicate_zero (k : Nat) : ofDigits (List.replicate k 0) = 0 := by
  induction k with
  | zero => rfl
  | succ k ih => rw [List.replicate_succ', ofDigits_concat, ih]

theorem ofDigits_lt {ds : List Nat} (h : ∀ d ∈ ds, d < 10) : ofDigits ds < 10 ^ ds.length := by
  induction ds using List.reverseRecOn with
  | nil => simp [ofDigits]
  | append_singleton ds d ih =>
      have hds := ih fun e he => h e (List.mem_append_left _ he)
      have hd := h d (by simp)
      rw [ofDigits_concat, List.length_append, List.length_singleton, Nat.pow_succ]
      omega

theorem digits_ofDigits {d : Nat} {ds : List Nat} (hd : d ≠ 0) (h : ∀ e ∈ d :: ds, e < 10) :
    digits (ofDigits (d :: ds)) = d :: ds := by
  induction ds using List.reverseRecOn with
  | nil =>
      have hsingle : ofDigits [d] = d := by simp [ofDigits]
      rw [hsingle, digits, if_pos (h d List.mem_cons_self)]
  | append_singleton ds e ih =>
      rw [← List.cons_append] at h ⊢
      have hinit := ih fun x hx => h x (List.mem_append_left _ hx)
      have he : e < 10 := h e (by simp)
      have hpos : ofDigits (d :: ds) ≠ 0 := by
        intro hzero
        rw [hzero, digits, if_pos (by decide)] at hinit
        exact hd (List.cons.inj hinit).1.symm
      rw [ofDigits_concat, digits, if_neg (by omega), Nat.mul_add_div (by decide),
        Nat.div_eq_of_lt he, Nat.add_zero, hinit, Nat.mul_add_mod, Nat.mod_eq_of_lt he]

theorem length_digits_eq_iff {n k : Nat} (hk : 0 < k) :
    (digits n).length = k + 1 ↔ 10 ^ k ≤ n ∧ n < 10 ^ (k + 1) := by
  have hupper := lt_pow_length_digits n
  constructor
  · intro h
    have hpos : 0 < n := by
      by_contra hzero
      rw [Nat.eq_zero_of_not_pos hzero, digits, if_pos (by decide), List.length_singleton] at h
      omega
    have hlower := pow_length_digits_le hpos
    rw [h] at hupper hlower
    exact ⟨hlower, hupper⟩
  · rintro ⟨hlow, hhigh⟩
    have hlower := pow_length_digits_le (Nat.lt_of_lt_of_le (Nat.pow_pos (by decide)) hlow)
    have hone : 1 < 10 := by decide
    have hle := (Nat.pow_lt_pow_iff_right hone).mp (Nat.lt_of_le_of_lt hlower hhigh)
    have hge := (Nat.pow_lt_pow_iff_right hone).mp (Nat.lt_of_le_of_lt hlow hupper)
    omega

theorem div_mod_of_digits {n d : Nat} {ds : List Nat} (h : digits n = d :: ds) :
    n / 10 ^ ds.length = d ∧ n % 10 ^ ds.length = ofDigits ds := by
  have hlt := digits_lt n
  rw [h, List.forall_mem_cons] at hlt
  have hrest := ofDigits_lt hlt.2
  have hvalue := ofDigits_digits n
  rw [h, ofDigits_cons, Nat.mul_comm] at hvalue
  rw [← hvalue, Nat.mul_add_div (Nat.pow_pos (by decide)), Nat.mul_add_mod,
    Nat.div_eq_of_lt hrest, Nat.mod_eq_of_lt hrest]
  exact ⟨rfl, rfl⟩

theorem digits_of_head {n d e : Nat} {ds : List Nat} (h : digits n = d :: ds) (he : e ≠ 0)
    (hlt : e < 10) : digits (e * 10 ^ ds.length + n % 10 ^ ds.length) = e :: ds := by
  have hds := digits_lt n
  rw [h, List.forall_mem_cons] at hds
  rw [(div_mod_of_digits h).2, ← ofDigits_cons]
  exact digits_ofDigits he (List.forall_mem_cons.mpr ⟨hlt, hds.2⟩)

theorem charDigit?_digitChar {d : Nat} (h : d < 10) : charDigit? (digitChar d) = some d := by
  have hall : ∀ d < 10, charDigit? (digitChar d) = some d := by decide
  exact hall d h

theorem mapM_charDigit?_map_digitChar {ds : List Nat} (h : ∀ d ∈ ds, d < 10) :
    (ds.map digitChar).mapM charDigit? = some ds := by
  induction ds with
  | nil => rfl
  | cons d ds ih =>
      rw [List.forall_mem_cons] at h
      simp [charDigit?_digitChar h.1, ih h.2]

theorem readNat?_natChars (n : Nat) : readNat? (natChars n) = some n := by
  have hne : natChars n ≠ [] := by simp [natChars, digits_ne_nil]
  rw [readNat?, if_neg hne, natChars, mapM_charDigit?_map_digitChar (digits_lt n),
    Option.map_some, ofDigits_digits]

theorem natText_injective : Function.Injective natText := by
  intro m n h
  have hchars : natChars m = natChars n := by
    simpa [natText] using congrArg String.toList h
  have hread : some m = some n := by
    rw [← readNat?_natChars m, ← readNat?_natChars n, hchars]
  exact Option.some.inj hread

end SchemaSieve.Decimal
