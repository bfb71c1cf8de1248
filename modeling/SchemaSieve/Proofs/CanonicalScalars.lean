import SchemaSieve.Coercion.Basic
import SchemaSieve.Proofs.Numerals
import SchemaSieve.Proofs.Phones
import SchemaSieve.Proofs.Rounding

/-!
# Canonical scalars

What a coercion can give under each tag, and that such a value is its own
canonical form.  An unsigned integer comes out of a coercion only from itself or
above the signed range.
-/

namespace SchemaSieve.Coercion

inductive IsCanonical : ScalarTag → Value → Prop
  | integer (i : Int64) : IsCanonical .int (.integer i)
  | unsigned (u : UInt64) : IsCanonical .int (.unsigned u)
  | float (x : Double) (finite : x.isFinite = true) : IsCanonical .float (.float x)
  | string (s : String) : IsCanonical .string (.string s)
  | phone (s : String) (canonical : Phone.IsCanonical s) : IsCanonical .phone (.string s)

theorem isFinite_of_finite? {x y : Double} (h : finite? x = some y) : y.isFinite = true := by
  unfold finite? at h
  split at h
  · cases h
    assumption
  · cases h

theorem isFinite_of_toFloat? {v : Value} {x : Double} (h : toFloat? v = some x) :
    x.isFinite = true := by
  unfold toFloat? at h
  split at h
  · cases h
    exact Double.isFinite_ofInt64 _
  · cases h
    exact Double.isFinite_ofUInt64 _
  · exact isFinite_of_finite? h
  · split at h
    · exact isFinite_of_finite? h
    · cases h
  · cases h

theorem isCanonical_of_toPhone? {v : Value} {s : String} (h : Phone.toPhone? v = some s) :
    Phone.IsCanonical s := by
  unfold Phone.toPhone? at h
  split at h
  · exact Phone.isCanonical_of_canonical? h
  · exact Phone.isCanonical_of_canonical? h
  · cases h

theorem isCanonical_of_coerce? {tag : ScalarTag} {v w : Value} (h : coerce? tag v = some w) :
    IsCanonical tag w := by
  cases tag with
  | int =>
      simp only [coerce?] at h
      split at h
      · cases h
        exact .integer _
      · obtain ⟨u, -, rfl⟩ := Option.map_eq_some_iff.mp h
        exact .unsigned u
  | float =>
      obtain ⟨x, hx, rfl⟩ := Option.map_eq_some_iff.mp h
      exact .float x (isFinite_of_toFloat? hx)
  | string =>
      obtain ⟨s, -, rfl⟩ := Option.map_eq_some_iff.mp h
      exact .string s
  | phone =>
      obtain ⟨s, hs, rfl⟩ := Option.map_eq_some_iff.mp h
      exact .phone s (isCanonical_of_toPhone? hs)

theorem coerce?_of_isCanonical {tag : ScalarTag} {w : Value} (h : IsCanonical tag w) :
    coerce? tag w = some w := by
  cases h with
  | integer i => rfl
  | unsigned u => rfl
  | float x finite => simp [coerce?, toFloat?, finite?, finite]
  | string s => rfl
  | phone s canonical =>
      simp [coerce?, Phone.toPhone?, Phone.canonical?_of_isCanonical canonical]

theorem coerce?_coerce? {tag : ScalarTag} {v w : Value} (h : coerce? tag v = some w) :
    coerce? tag w = some w :=
  coerce?_of_isCanonical (isCanonical_of_coerce? h)

theorem signed?_of_range {n : Int} (hlow : -2 ^ 63 ≤ n) (hhigh : n < 2 ^ 63) :
    signed? n = some (.ofInt n) :=
  if_pos ⟨hlow, hhigh⟩

theorem integerOfText?_of_readUnsigned? {s : String} {n : Nat}
    (h : Decimal.readUnsigned? s.toList = some n) (hn : n < 2 ^ 63) :
    integerOfText? s = some (.ofInt n) := by
  have hint : (Decimal.readInt? s.toList).bind signed? = some (.ofInt n) := by
    rw [Decimal.readInt?_of_readUnsigned? h, Option.bind_some,
      signed?_of_range (by omega) (by omega)]
  rw [integerOfText?, hint, Decimal.read?_of_readUnsigned? h]

theorem eq_or_large_of_coerce?_unsigned {v : Value} {u : UInt64}
    (h : coerce? .int v = some (.unsigned u)) : v = .unsigned u ∨ 2 ^ 63 ≤ u.toNat := by
  simp only [coerce?] at h
  split at h
  · cases h
  · rename_i hsigned
    obtain ⟨u', hu, hvalue⟩ := Option.map_eq_some_iff.mp h
    cases hvalue
    unfold toUnsigned? at hu
    split at hu
    · cases hu
      exact .inl rfl
    · rename_i s
      split at hu
      · rename_i n hread
        split at hu
        · rename_i hn
          cases hu
          rw [UInt64.toNat_ofNat_of_lt' hn]
          -- below 2 ^ 63 the digits would have been read as a signed integer
          refine .inr (Nat.le_of_not_lt fun hsmall => ?_)
          simp [toInteger?, integerOfText?_of_readUnsigned? hread hsmall] at hsigned
        · cases hu
      · cases hu
    · cases hu

end SchemaSieve.Coercion
