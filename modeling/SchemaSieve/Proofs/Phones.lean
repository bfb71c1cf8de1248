import SchemaSieve.Coercion.Phone

/-!
# Canonical phone numbers

A canonical form is the digit 7 and ten more digits, and every such text is its
own canonical form.
-/

namespace SchemaSieve.Coercion.Phone

def IsSubscriber (ds : List Char) : Prop :=
  ds.length = 10 ∧ ∀ c ∈ ds, Decimal.isDigit c = true

theorem group?_eq_some_iff {n : Nat} {cs ds rest : List Char} :
    group? n cs = some (ds, rest) ↔
      cs = ds ++ rest ∧ ds.length = n ∧ ∀ c ∈ ds, Decimal.isDigit c = true := by
  induction n generalizing cs ds with
  | zero =>
      simp only [group?, Option.some.injEq, Prod.mk.injEq, List.length_eq_zero_iff]
      constructor
      · rintro ⟨rfl, rfl⟩
        simp
      · rintro ⟨rfl, rfl, -⟩
        simp
  | succ n ih =>
      cases cs with
      | nil =>
          simp only [group?, reduceCtorEq, false_iff]
          rintro ⟨hnil, hlen, -⟩
          have hds : ds = [] := (List.append_eq_nil_iff.mp hnil.symm).1
          simp [hds] at hlen
      | cons c cs =>
          cases hc : Decimal.isDigit c with
          | false =>
              simp only [group?, hc, Bool.false_eq_true, if_false, reduceCtorEq, false_iff]
              rintro ⟨hcons, hlen, hdigits⟩
              cases ds with
              | nil => simp at hlen
              | cons d ds =>
                  cases hcons
                  simp [hc] at hdigits
          | true =>
              simp only [group?, hc, if_true, Option.map_eq_some_iff]
              constructor
              · rintro ⟨⟨ds', rest'⟩, hgroup, h⟩
                cases h
                obtain ⟨rfl, hlen, hdigits⟩ := ih.mp hgroup
                exact ⟨rfl, by simp [hlen], List.forall_mem_cons.mpr ⟨hc, hdigits⟩⟩
              · rintro ⟨hcons, hlen, hdigits⟩
                cases ds with
                | nil => simp at hlen
                | cons d ds =>
                    cases hcons
                    have htail := (List.forall_mem_cons.mp hdigits).2
                    exact ⟨(ds, rest), ih.mpr ⟨rfl, by simpa using hlen, htail⟩, rfl⟩

theorem area?_digits {cs ds rest : List Char} (h : area? cs = some (ds, rest)) :
    ds.length = 3 ∧ ∀ c ∈ ds, Decimal.isDigit c = true := by
  unfold area? at h
  split at h
  · split at h
    · rename_i hgroup
      cases h
      exact (group?_eq_some_iff.mp hgroup).2
    · cases h
  · exact (group?_eq_some_iff.mp h).2

theorem isSubscriber_of_subscriber? {cs ds : List Char} (h : subscriber? cs = some ds) :
    IsSubscriber ds := by
  simp only [subscriber?, bind, Option.bind_eq_some_iff, Prod.exists] at h
  obtain ⟨area, _, harea, first, _, hfirst, second, _, hsecond, third, _, hthird, h⟩ := h
  split at h
  · cases h
    have harea := area?_digits harea
    have hfirst := (group?_eq_some_iff.mp hfirst).2
    have hsecond := (group?_eq_some_iff.mp hsecond).2
    have hthird := (group?_eq_some_iff.mp hthird).2
    refine ⟨by simp [harea.1, hfirst.1, hsecond.1, hthird.1], fun c hc => ?_⟩
    simp only [List.mem_append] at hc
    rcases hc with ((hc | hc) | hc) | hc
    · exact harea.2 c hc
    · exact hfirst.2 c hc
    · exact hsecond.2 c hc
    · exact hthird.2 c hc
  · cases h

/-! ## Digits alone -/

theorem skipGap_of_isDigit {c : Char} {cs : List Char} (h : Decimal.isDigit c = true) :
    skipGap (c :: cs) = c :: cs := by
  have hblank : c ≠ ' ' := by rintro rfl; cases h
  have hdash : c ≠ '-' := by rintro rfl; cases h
  simp [skipGap, hblank, hdash]

theorem area?_of_isDigit {c : Char} {cs : List Char} (h : Decimal.isDigit c = true) :
    area? (c :: cs) = group? 3 (c :: cs) := by
  have hopen : c ≠ '(' := by rintro rfl; cases h
  simp [area?, hopen]

theorem group?_skipGap {n : Nat} {ds : List Char}
    (hdigits : ∀ c ∈ ds, Decimal.isDigit c = true) (hlen : n ≤ ds.length) :
    group? n (skipGap ds) = some (ds.take n, ds.drop n) := by
  have hskip : skipGap ds = ds := by
    cases ds with
    | nil => rfl
    | cons c ds => exact skipGap_of_isDigit (hdigits c (List.mem_cons_self ..))
  rw [hskip, group?_eq_some_iff]
  exact ⟨(List.take_append_drop n ds).symm, List.length_take_of_le hlen,
    fun c hc => hdigits c (List.mem_of_mem_take hc)⟩

theorem area?_skipGap {ds : List Char} (hdigits : ∀ c ∈ ds, Decimal.isDigit c = true)
    (hlen : 3 ≤ ds.length) : area? (skipGap ds) = some (ds.take 3, ds.drop 3) := by
  rw [← group?_skipGap hdigits hlen]
  cases ds with
  | nil => simp at hlen
  | cons c ds =>
      have hc := hdigits c (List.mem_cons_self ..)
      rw [skipGap_of_isDigit hc, area?_of_isDigit hc]

theorem subscriber?_of_isSubscriber {ds : List Char} (h : IsSubscriber ds) :
    subscriber? ds = some ds := by
  obtain ⟨hlen, hdigits⟩ := h
  have hdrop : ∀ n, ∀ c ∈ ds.drop n, Decimal.isDigit c = true :=
    fun n c hc => hdigits c (List.mem_of_mem_drop hc)
  have harea := area?_skipGap hdigits (by omega)
  have hfirst := group?_skipGap (n := 3) (hdrop 3) (by simp; omega)
  have hsecond := group?_skipGap (n := 2) (hdrop 6) (by simp; omega)
  have hthird := group?_skipGap (n := 2) (hdrop 8) (by simp; omega)
  simp only [List.drop_drop] at hfirst hsecond hthird
  have hend : ds.drop 10 = [] := List.drop_eq_nil_of_le (by omega)
  simp only [subscriber?, bind, harea, Option.bind_some, hfirst, hsecond, hthird, hend, if_true]
  rw [← List.take_add, ← List.take_add, ← List.take_add, List.take_of_length_le (by omega)]

/-! ## Canonical forms -/

def IsCanonical (s : String) : Prop :=
  s.toList.length = 11 ∧ (∀ c ∈ s.toList, Decimal.isDigit c = true) ∧
    s.toList.head? = some '7'

theorem isCanonical_iff {s : String} :
    IsCanonical s ↔ ∃ ds, IsSubscriber ds ∧ s.toList = '7' :: ds := by
  constructor
  · rintro ⟨hlen, hdigits, hhead⟩
    obtain ⟨ds, hds⟩ := List.head?_eq_some_iff.mp hhead
    rw [hds] at hlen hdigits
    exact ⟨ds, ⟨by simpa using hlen, (List.forall_mem_cons.mp hdigits).2⟩, hds⟩
  · rintro ⟨ds, ⟨hlen, hdigits⟩, hds⟩
    rw [IsCanonical, hds]
    exact ⟨by simp [hlen], List.forall_mem_cons.mpr ⟨rfl, hdigits⟩, rfl⟩

theorem isCanonical_of_canonical? {s t : String} (h : canonical? s = some t) :
    IsCanonical t := by
  rw [canonical?, Option.map_eq_some_iff] at h
  obtain ⟨ds, hds, rfl⟩ := h
  obtain ⟨cs, -, hcs⟩ := Option.bind_eq_some_iff.mp hds
  exact isCanonical_iff.mpr ⟨ds, isSubscriber_of_subscriber? hcs, String.toList_ofList⟩

theorem canonical?_of_isCanonical {s : String} (h : IsCanonical s) : canonical? s = some s := by
  obtain ⟨ds, hsubscriber, hds⟩ := isCanonical_iff.mp h
  have htrunk : afterTrunk? ('7' :: ds) = some ds := rfl
  rw [canonical?, hds, htrunk, Option.bind_some, subscriber?_of_isSubscriber hsubscriber,
    Option.map_some, ← hds, String.ofList_toList]

end SchemaSieve.Coercion.Phone
