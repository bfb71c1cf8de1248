import Mathlib.Data.List.DropRight
import SchemaSieve.Proofs.DecidableEquality
import SchemaSieve.Proofs.Numerals
import SchemaSieve.Proofs.Phones

/-!
# Spellings of phone numbers

The grammar of phone numbers, part by part, with the digits that each part spells.  The
reader takes exactly this grammar, and the canonical form it gives depends on nothing but
the last ten digits.  The decimal text of an integer is all digits, so it spells a number
exactly if there are eleven of them and the first is 7 or 8.
-/

namespace SchemaSieve.Coercion.Phone

open Decimal

/-! ## Grammar -/

inductive GapText : List Char → Prop
  | missing : GapText []
  | space : GapText [' ']
  | dash : GapText ['-']

def IsGroup (n : Nat) (ds : List Char) : Prop :=
  ds.length = n ∧ ∀ c ∈ ds, isDigit c = true

inductive GroupText (n : Nat) : List Char → List Char → Prop
  | intro {gap ds : List Char} (separated : GapText gap) (group : IsGroup n ds) :
      GroupText n (gap ++ ds) ds

inductive AreaText : List Char → List Char → Prop
  | bare {gap ds : List Char} (separated : GapText gap) (group : IsGroup 3 ds) :
      AreaText (gap ++ ds) ds
  | enclosed {gap ds : List Char} (separated : GapText gap) (group : IsGroup 3 ds) :
      AreaText (gap ++ '(' :: (ds ++ [')'])) ds

inductive SubscriberText : List Char → List Char → Prop
  | intro {area first second third as fs ss ts : List Char} (coded : AreaText area as)
      (begun : GroupText 3 first fs) (continued : GroupText 2 second ss)
      (ended : GroupText 2 third ts) :
      SubscriberText (area ++ (first ++ (second ++ third))) (as ++ fs ++ ss ++ ts)

inductive PlusText : List Char → Prop
  | missing : PlusText []
  | plus : PlusText ['+']

inductive PhoneText : List Char → Prop
  | intro {plus text ds : List Char} {trunk : Char} (international : PlusText plus)
      (first : trunk = '7' ∨ trunk = '8') (subscriber : SubscriberText text ds) :
      PhoneText (plus ++ trunk :: text)

/-! ## Reading -/

variable {gap cs ds rest text plus : List Char} {n : Nat} {s t : String}

theorem exists_gap (cs : List Char) : ∃ gap, GapText gap ∧ cs = gap ++ skipGap cs := by
  unfold skipGap
  split
  · exact ⟨[' '], .space, rfl⟩
  · exact ⟨['-'], .dash, rfl⟩
  · exact ⟨[], .missing, rfl⟩

theorem GapText.skipGap_append (h : GapText gap) (hcs : skipGap cs = cs) :
    skipGap (gap ++ cs) = cs := by
  cases h with
  | missing => exact hcs
  | space => rfl
  | dash => rfl

theorem IsGroup.exists_cons (h : IsGroup n ds) (hn : n ≠ 0) :
    ∃ c cs, ds = c :: cs ∧ isDigit c = true := by
  obtain ⟨rfl, hdigits⟩ := h
  obtain ⟨c, cs, rfl⟩ := List.exists_cons_of_ne_nil (List.length_eq_zero_iff.not.mp hn)
  exact ⟨c, cs, rfl, hdigits c List.mem_cons_self⟩

theorem IsGroup.skipGap_append (h : IsGroup n ds) (hn : n ≠ 0) (rest : List Char) :
    skipGap (ds ++ rest) = ds ++ rest := by
  obtain ⟨c, cs, rfl, hc⟩ := h.exists_cons hn
  exact skipGap_of_isDigit hc

theorem group?_skipGap_iff (hn : n ≠ 0) :
    group? n (skipGap cs) = some (ds, rest) ↔
      ∃ text, GroupText n text ds ∧ cs = text ++ rest := by
  constructor
  · intro h
    obtain ⟨gap, hgap, hcs⟩ := exists_gap cs
    obtain ⟨hskip, hgroup⟩ := group?_eq_some_iff.mp h
    exact ⟨gap ++ ds, .intro hgap hgroup, by rw [hcs, hskip, List.append_assoc]⟩
  · rintro ⟨_, ⟨hgap, hgroup⟩, rfl⟩
    rw [List.append_assoc, hgap.skipGap_append (hgroup.skipGap_append hn rest),
      group?_eq_some_iff]
    exact ⟨rfl, hgroup⟩

theorem area?_eq_some_iff :
    area? cs = some (ds, rest) ↔
      IsGroup 3 ds ∧ (cs = ds ++ rest ∨ cs = '(' :: (ds ++ ')' :: rest)) := by
  constructor
  · intro h
    unfold area? at h
    split at h
    · split at h
      next hgroup =>
        cases h
        obtain ⟨hcs, hgroup⟩ := group?_eq_some_iff.mp hgroup
        exact ⟨hgroup, .inr (by rw [hcs])⟩
      · cases h
    · obtain ⟨hcs, hgroup⟩ := group?_eq_some_iff.mp h
      exact ⟨hgroup, .inl hcs⟩
  · rintro ⟨hgroup, rfl | rfl⟩
    · obtain ⟨c, cs, rfl, hc⟩ := hgroup.exists_cons (by decide)
      rw [List.cons_append, area?_of_isDigit hc, group?_eq_some_iff]
      exact ⟨rfl, hgroup⟩
    · have hread : group? 3 (ds ++ ')' :: rest) = some (ds, ')' :: rest) :=
        group?_eq_some_iff.mpr ⟨rfl, hgroup⟩
      simp [area?, hread]

theorem area?_skipGap_iff :
    area? (skipGap cs) = some (ds, rest) ↔ ∃ text, AreaText text ds ∧ cs = text ++ rest := by
  rw [area?_eq_some_iff]
  constructor
  · rintro ⟨hgroup, hskip⟩
    obtain ⟨gap, hgap, hcs⟩ := exists_gap cs
    rcases hskip with hskip | hskip
    · exact ⟨_, .bare hgap hgroup, by rw [hcs, hskip, List.append_assoc]⟩
    · exact ⟨_, .enclosed hgap hgroup, by rw [hcs, hskip]; simp⟩
  · rintro ⟨_, ⟨hgap, hgroup⟩ | ⟨hgap, hgroup⟩, rfl⟩
    · rw [List.append_assoc, hgap.skipGap_append (hgroup.skipGap_append (by decide) rest)]
      exact ⟨hgroup, .inl rfl⟩
    · rw [List.append_assoc, hgap.skipGap_append rfl]
      exact ⟨hgroup, .inr (by simp)⟩

theorem subscriber?_eq_some_iff : subscriber? cs = some ds ↔ SubscriberText cs ds := by
  simp only [subscriber?, bind, Option.bind_eq_some_iff, Prod.exists, area?_skipGap_iff,
    group?_skipGap_iff (by decide : 3 ≠ 0), group?_skipGap_iff (by decide : 2 ≠ 0)]
  constructor
  · rintro ⟨as, _, ⟨area, harea, rfl⟩, fs, _, ⟨first, hfirst, rfl⟩, ss, _, ⟨second, hsecond, rfl⟩,
      ts, rest, ⟨third, hthird, rfl⟩, h⟩
    split at h
    next hend =>
      cases h
      rw [hend, List.append_nil]
      exact .intro harea hfirst hsecond hthird
    · cases h
  · rintro ⟨harea, hfirst, hsecond, hthird⟩
    exact ⟨_, _, ⟨_, harea, rfl⟩, _, _, ⟨_, hfirst, rfl⟩, _, _, ⟨_, hsecond, rfl⟩, _, [],
      ⟨_, hthird, (List.append_nil _).symm⟩, if_pos rfl⟩

theorem afterTrunk?_eq_some_iff :
    afterTrunk? cs = some rest ↔
      ∃ plus trunk, PlusText plus ∧ (trunk = '7' ∨ trunk = '8') ∧ cs = plus ++ trunk :: rest := by
  constructor
  · intro h
    unfold afterTrunk? at h
    split at h <;> dsimp only at h <;> split at h <;> cases h
    · exact ⟨_, _, .plus, .inl rfl, rfl⟩
    · exact ⟨_, _, .plus, .inr rfl, rfl⟩
    · exact ⟨_, _, .missing, .inl rfl, rfl⟩
    · exact ⟨_, _, .missing, .inr rfl, rfl⟩
  · rintro ⟨_, _, ⟨⟩ | ⟨⟩, rfl | rfl, rfl⟩ <;> rfl

/-! ## Digits -/

theorem GapText.filter_isDigit (h : GapText gap) : gap.filter isDigit = [] := by
  cases h <;> rfl

theorem IsGroup.filter_isDigit (h : IsGroup n ds) : ds.filter isDigit = ds :=
  List.filter_eq_self.mpr h.2

theorem GroupText.filter_isDigit (h : GroupText n text ds) : text.filter isDigit = ds := by
  obtain ⟨hgap, hgroup⟩ := h
  simp [hgap.filter_isDigit, hgroup.filter_isDigit]

theorem AreaText.filter_isDigit (h : AreaText text ds) : text.filter isDigit = ds := by
  cases h with
  | bare hgap hgroup => exact GroupText.filter_isDigit (.intro hgap hgroup)
  | enclosed hgap hgroup =>
      have hopen : isDigit '(' = false := rfl
      have hclose : isDigit ')' = false := rfl
      simp [hgap.filter_isDigit, hgroup.filter_isDigit, hopen, hclose]

theorem SubscriberText.filter_isDigit (h : SubscriberText text ds) :
    text.filter isDigit = ds := by
  obtain ⟨harea, hfirst, hsecond, hthird⟩ := h
  simp [harea.filter_isDigit, hfirst.filter_isDigit, hsecond.filter_isDigit,
    hthird.filter_isDigit]

theorem PlusText.filter_isDigit (h : PlusText plus) : plus.filter isDigit = [] := by
  cases h <;> rfl

/-- The last ten digits of a text, whatever stands between them. -/
def lastTen (s : String) : List Char := (s.toList.filter isDigit).rtake 10

theorem lastTen_of_subscriber {trunk : Char} (hplus : PlusText plus)
    (htrunk : trunk = '7' ∨ trunk = '8') (h : SubscriberText text ds)
    (hs : s.toList = plus ++ trunk :: text) : lastTen s = ds := by
  have hdigit : isDigit trunk = true := by rcases htrunk with rfl | rfl <;> rfl
  have hlen : ds.length = 10 :=
    (isSubscriber_of_subscriber? (subscriber?_eq_some_iff.mpr h)).1
  simp [lastTen, hs, hplus.filter_isDigit, h.filter_isDigit, hdigit, List.rtake, hlen]

theorem canonical?_eq_some_iff :
    canonical? s = some t ↔ PhoneText s.toList ∧ t = String.ofList ('7' :: lastTen s) := by
  simp only [canonical?, Option.map_eq_some_iff, Option.bind_eq_some_iff,
    afterTrunk?_eq_some_iff, subscriber?_eq_some_iff]
  constructor
  · rintro ⟨ds, ⟨text, ⟨plus, trunk, hplus, htrunk, hs⟩, hds⟩, rfl⟩
    rw [hs, lastTen_of_subscriber hplus htrunk hds hs]
    exact ⟨.intro hplus htrunk hds, rfl⟩
  · rintro ⟨hphone, rfl⟩
    generalize hs : s.toList = cs at hphone
    obtain ⟨hplus, htrunk, hds⟩ := hphone
    exact ⟨_, ⟨_, ⟨_, _, hplus, htrunk, rfl⟩, hds⟩,
      by rw [lastTen_of_subscriber hplus htrunk hds hs]⟩

/-! ## Integers -/

theorem phoneText_iff_of_digits (hcs : ∀ c ∈ cs, isDigit c = true) :
    PhoneText cs ↔ ∃ trunk ds, cs = trunk :: ds ∧ (trunk = '7' ∨ trunk = '8') ∧ ds.length = 10 := by
  constructor
  · rintro ⟨hplus, htrunk, htext⟩
    have hsubscriber := isSubscriber_of_subscriber? (subscriber?_eq_some_iff.mpr htext)
    cases hplus with
    | missing =>
        have hall := htext.filter_isDigit
        rw [List.filter_eq_self.mpr (List.forall_mem_cons.mp hcs).2] at hall
        exact ⟨_, _, rfl, htrunk, hall ▸ hsubscriber.1⟩
    | plus => cases hcs '+' List.mem_cons_self
  · rintro ⟨trunk, ds, rfl, htrunk, hlen⟩
    have hsubscriber : IsSubscriber ds := ⟨hlen, (List.forall_mem_cons.mp hcs).2⟩
    have htext := subscriber?_eq_some_iff.mp (subscriber?_of_isSubscriber hsubscriber)
    exact PhoneText.intro .missing htrunk htext

theorem isDigit_of_mem_natChars (n : Nat) : ∀ c ∈ natChars n, isDigit c = true :=
  isDigit_of_readNat? (readNat?_natChars n)

theorem digitChar_trunk_iff {d : Nat} (hd : d < 10) :
    digitChar d = '7' ∨ digitChar d = '8' ↔ d = 7 ∨ d = 8 := by
  have hall : ∀ d < 10, (digitChar d = '7' ∨ digitChar d = '8' ↔ d = 7 ∨ d = 8) := by decide
  exact hall d hd

theorem exists_eleven_digits {m : Nat} (hlow : 7 * 10 ^ 10 ≤ m) (hhigh : m < 10 ^ 11) :
    ∃ d ds, digits m = d :: ds ∧ ds.length = 10 := by
  have hlen := (length_digits_eq_iff (by decide : 0 < 10)).mpr ⟨by omega, hhigh⟩
  obtain ⟨d, ds, hds⟩ := List.exists_cons_of_length_eq_add_one hlen
  exact ⟨d, ds, hds, by simpa [hds] using hlen⟩

theorem phoneText_natChars_iff {m : Nat} :
    PhoneText (natChars m) ↔ 7 * 10 ^ 10 ≤ m ∧ m < 9 * 10 ^ 10 := by
  rw [phoneText_iff_of_digits (isDigit_of_mem_natChars m)]
  constructor
  · rintro ⟨trunk, cs, hcs, htrunk, hlen⟩
    obtain ⟨d, ds, hds, rfl, rfl⟩ := List.map_eq_cons_iff.mp hcs
    rw [List.length_map] at hlen
    have hd : d < 10 := digits_lt m d (hds ▸ List.mem_cons_self)
    have hdiv := (div_mod_of_digits hds).1
    rw [hlen] at hdiv
    rcases (digitChar_trunk_iff hd).mp htrunk with rfl | rfl <;> omega
  · rintro ⟨hlow, hhigh⟩
    obtain ⟨d, ds, hds, hlen⟩ := exists_eleven_digits hlow (by omega)
    have hdiv := (div_mod_of_digits hds).1
    rw [hlen] at hdiv
    have hcs : natChars m = digitChar d :: ds.map digitChar := by rw [natChars, hds, List.map_cons]
    exact ⟨_, _, hcs, (digitChar_trunk_iff (by omega)).mpr (by omega), by simpa using hlen⟩

theorem ofList_lastTen_natText {m : Nat} (hlow : 7 * 10 ^ 10 ≤ m) (hhigh : m < 9 * 10 ^ 10) :
    String.ofList ('7' :: lastTen (natText m)) = natText (7 * 10 ^ 10 + m % 10 ^ 10) := by
  obtain ⟨d, ds, hds, hlen⟩ := exists_eleven_digits hlow (by omega)
  have hchanged := digits_of_head hds (by decide : 7 ≠ 0) (by decide)
  rw [hlen] at hchanged
  have hlast : lastTen (natText m) = ds.map digitChar := by
    have hall := List.filter_eq_self.mpr (isDigit_of_mem_natChars m)
    rw [lastTen, natText, String.toList_ofList, hall, natChars, hds]
    simp [List.rtake, hlen]
  rw [hlast, natText, natChars, hchanged]
  rfl

theorem not_phoneText_minus : ¬ PhoneText ('-' :: cs) := by
  intro h
  generalize htext : '-' :: cs = text at h
  obtain ⟨⟨⟩ | ⟨⟩, htrunk, -⟩ := h
  · obtain rfl := (List.cons.inj htext).1
    simp at htrunk
  · cases htext

theorem canonical?_intText_eq_some_iff {i : Int} :
    canonical? (intText i) = some t ↔
      (7 * 10 ^ 10 ≤ i ∧ i < 9 * 10 ^ 10) ∧ t = intText (7 * 10 ^ 10 + i % 10 ^ 10) := by
  rw [canonical?_eq_some_iff]
  cases i with
  | ofNat m =>
      have htext : intText (.ofNat m) = natText m := rfl
      have hchars : (natText m).toList = natChars m := String.toList_ofList
      have hchanged : intText (7 * 10 ^ 10 + Int.ofNat m % 10 ^ 10) =
          natText (7 * 10 ^ 10 + m % 10 ^ 10) := rfl
      rw [htext, hchars, phoneText_natChars_iff, hchanged, Int.ofNat_eq_natCast]
      constructor
      · rintro ⟨⟨hlow, hhigh⟩, rfl⟩
        exact ⟨by omega, ofList_lastTen_natText hlow hhigh⟩
      · rintro ⟨hrange, rfl⟩
        have hlow : 7 * 10 ^ 10 ≤ m := by omega
        have hhigh : m < 9 * 10 ^ 10 := by omega
        exact ⟨⟨hlow, hhigh⟩, (ofList_lastTen_natText hlow hhigh).symm⟩
  | negSucc m =>
      have hchars : (intText (.negSucc m)).toList = '-' :: natChars (m + 1) :=
        String.toList_ofList
      rw [hchars]
      constructor
      · rintro ⟨hphone, -⟩
        exact absurd hphone not_phoneText_minus
      · rintro ⟨⟨hlow, -⟩, -⟩
        have hneg := Int.negSucc_lt_zero m
        omega

theorem canonical?_canonical? (h : canonical? s = some t) : canonical? t = some t :=
  canonical?_of_isCanonical (isCanonical_of_canonical? h)

/-- What is a phone number and what its canonical form is: of texts by the grammar and
their last ten digits, of integers by their range.  A canonical form is its own. -/
theorem phone_of_spelling :
    (∀ s t, toPhone? (.string s) = some t ↔
      PhoneText s.toList ∧ t = String.ofList ('7' :: lastTen s)) ∧
    (∀ s₁ s₂ t₁ t₂, toPhone? (.string s₁) = some t₁ → toPhone? (.string s₂) = some t₂ →
      (t₁ = t₂ ↔ lastTen s₁ = lastTen s₂)) ∧
    (∀ s t, toPhone? (.string s) = some t → toPhone? (.string t) = some t) ∧
    (∀ (i : Int64) t, toPhone? (.integer i) = some t ↔
      (7 * 10 ^ 10 ≤ i.toInt ∧ i.toInt < 9 * 10 ^ 10) ∧
        t = intText (7 * 10 ^ 10 + i.toInt % 10 ^ 10)) := by
  refine ⟨fun _ _ => canonical?_eq_some_iff, ?_, fun _ _ => canonical?_canonical?,
    fun _ _ => canonical?_intText_eq_some_iff⟩
  intro s₁ s₂ t₁ t₂ h₁ h₂
  obtain ⟨-, rfl⟩ := canonical?_eq_some_iff.mp h₁
  obtain ⟨-, rfl⟩ := canonical?_eq_some_iff.mp h₂
  simp [String.ofList_inj]

theorem phone_of_spelling_grouped :
    toPhone? (.string "8 (950) 288-56-23") = some "79502885623" ∧
      toPhone? (.string "+7-950288 5623") = some "79502885623" ∧
      lastTen "8 (950) 288-56-23" = lastTen "+7-950288 5623" ∧
      toPhone? (.string "79502885623") = some "79502885623" ∧
      toPhone? (.integer 89502885623) = some "79502885623" := by
  obtain ⟨-, hsame, hself, hinteger⟩ := phone_of_spelling
  have hgrouped : toPhone? (.string "8 (950) 288-56-23") = some "79502885623" := by decide +kernel
  have hplus : toPhone? (.string "+7-950288 5623") = some "79502885623" := by decide +kernel
  have hrange := (hinteger 89502885623 "79502885623").mpr ⟨by decide, by decide +kernel⟩
  exact ⟨hgrouped, hplus, (hsame _ _ _ _ hgrouped hplus).mp rfl, hself _ _ hgrouped, hrange⟩

end SchemaSieve.Coercion.Phone
