import SchemaSieve.Proofs.CanonicalScalars
import SchemaSieve.Proofs.DecidableEquality
import SchemaSieve.Proofs.Policies

/-!
# Wider types

`d.Below e` orders types by what they let through: `INT` below `FLOAT` below
`STRING`, `PHONE` below `STRING`, a malformed type below every type, arrays by
their elements, and a map below one that declares at least its fields, with wider
types.  What fits a type fits every wider one, so whatever passes a schema passes
a wider schema, wrong counts apart.
-/

namespace SchemaSieve

open Value Validation Normalization

def ScalarTag.Below (s t : ScalarTag) : Prop :=
  s = t ∨ t = .string ∨ s = .int ∧ t = .float

inductive Descriptor.Below : Descriptor → Descriptor → Prop
  | scalar {s t : ScalarTag} (tags : s.Below t) : Below (.scalar s) (.scalar t)
  | map {fields fields' : List (String × Descriptor)}
      (declared : ∀ name d, Members.get? fields name = some d →
        ∃ d', Members.get? fields' name = some d')
      (wider : ∀ name d d', Members.get? fields name = some d →
        Members.get? fields' name = some d' → Below d d') :
      Below (.map fields) (.map fields')
  | array {element element' : Descriptor} (wider : Below element element') :
      Below (.array element) (.array element')
  | malformed {defect : Defect} {raw : Json} {d : Descriptor} : Below (.malformed defect raw) d

/-- Every field is declared in the wider schema too, with a wider type. -/
def Schema.Below (s s' : Schema) : Prop :=
  ∀ name d, s.get? name = some d → ∃ d', s'.get? name = some d' ∧ d.Below d'

theorem below_map_iff {s s' : Schema} :
    Descriptor.Below (.map s) (.map s') ↔ s.Below s' := by
  constructor
  · intro h
    cases h with
    | map declared wider =>
        intro name d hd
        obtain ⟨d', hd'⟩ := declared name d hd
        exact ⟨d', hd', wider name d d' hd hd'⟩
  · intro h
    refine .map (fun name d hd => ?_) (fun name d d' hd hd' => ?_)
    · obtain ⟨d', hd', -⟩ := h name d hd
      exact ⟨d', hd'⟩
    · obtain ⟨d'', hd'', hbelow⟩ := h name d hd
      rw [hd'] at hd''
      cases hd''
      exact hbelow

/-! ## Scalars -/

namespace Coercion

theorem isFinite_nearest {negative : Bool} {n : Nat} (h : n < 2 ^ 64) :
    (nearest ⟨negative, n, 0⟩).isFinite = true := by
  rw [nearest, Double.ofDecimal]
  split
  · exact Double.isFinite_ofMagnitude (by decide)
  · simpa using Double.isFinite_ofRatio_one h

theorem finite?_isSome {x : Double} (h : x.isFinite = true) : (finite? x).isSome = true := by
  simp [finite?, h]

theorem isFinite_of_integral? {x : Double} {i : Int64} (h : integral? x = some i) :
    x.isFinite = true := by
  obtain ⟨n, hn, -⟩ := Option.bind_eq_some_iff.mp h
  unfold Double.integral? at hn
  split at hn
  · rename_i hfinite
    exact hfinite.1
  · cases hn

theorem natAbs_lt_of_signed? {n : Int} {i : Int64} (h : signed? n = some i) :
    n.natAbs < 2 ^ 64 := by
  unfold signed? at h
  split at h
  · omega
  · cases h

theorem isFinite_of_integerOfText? {s : String} {i : Int64} (h : integerOfText? s = some i) :
    ∃ n, Decimal.Numeral.read? s.toList = some n ∧ (nearest n).isFinite = true := by
  unfold integerOfText? at h
  split at h
  · cases h
  · rename_i n hread
    refine ⟨n, hread, ?_⟩
    split at h
    · rename_i hdigits
      obtain ⟨k, hk, hsigned⟩ := Option.bind_eq_some_iff.mp hdigits
      obtain ⟨negative, hread'⟩ := Decimal.read?_of_readInt? hk
      rw [hread] at hread'
      cases hread'
      exact isFinite_nearest (natAbs_lt_of_signed? hsigned)
    · exact isFinite_of_integral? h

theorem isFinite_of_readUnsigned? {s : String} {n : Nat}
    (h : Decimal.readUnsigned? s.toList = some n) (hn : n < 2 ^ 64) :
    ∃ m, Decimal.Numeral.read? s.toList = some m ∧ (nearest m).isFinite = true :=
  ⟨_, Decimal.read?_of_readUnsigned? h, isFinite_nearest hn⟩

theorem toFloat?_string_isSome {s : String}
    (h : ∃ n, Decimal.Numeral.read? s.toList = some n ∧ (nearest n).isFinite = true) :
    (toFloat? (.string s)).isSome = true := by
  obtain ⟨n, hread, hfinite⟩ := h
  simp only [toFloat?, hread]
  exact finite?_isSome hfinite

theorem toFloat?_isSome_of_toInteger? {v : Value} {i : Int64} (h : toInteger? v = some i) :
    (toFloat? v).isSome = true := by
  unfold toInteger? at h
  split at h
  · rfl
  · exact finite?_isSome (isFinite_of_integral? h)
  · exact toFloat?_string_isSome (isFinite_of_integerOfText? h)
  · cases h

theorem toFloat?_isSome_of_toUnsigned? {v : Value} {u : UInt64} (h : toUnsigned? v = some u) :
    (toFloat? v).isSome = true := by
  unfold toUnsigned? at h
  split at h
  · rfl
  · split at h
    · rename_i n hread
      split at h
      · rename_i hn
        exact toFloat?_string_isSome (isFinite_of_readUnsigned? hread hn)
      · cases h
    · cases h
  · cases h

theorem accepts_float_of_accepts_int {v : Value} (h : accepts .int v = true) :
    accepts .float v = true := by
  simp only [accepts, coerce?, Option.isSome_map] at h ⊢
  split at h
  · rename_i i hi
    exact toFloat?_isSome_of_toInteger? hi
  · rw [Option.isSome_map] at h
    obtain ⟨u, hu⟩ := Option.isSome_iff_exists.mp h
    exact toFloat?_isSome_of_toUnsigned? hu

theorem accepts_string_of_accepts {tag : ScalarTag} {v : Value} (h : accepts tag v = true) :
    accepts .string v = true := by
  cases v with
  | integer i => rfl
  | unsigned u => rfl
  | float x => rfl
  | string s => rfl
  | _ => cases tag <;> cases h

theorem accepts_of_below {s t : ScalarTag} {v : Value} (hbelow : s.Below t)
    (h : accepts s v = true) : accepts t v = true := by
  rcases hbelow with rfl | rfl | ⟨rfl, rfl⟩
  · exact h
  · exact accepts_string_of_accepts h
  · exact accepts_float_of_accepts_int h

end Coercion

/-! ## Trees -/

theorem fits_of_below {d d' : Descriptor} (hbelow : d.Below d') :
    ∀ {v : Value}, Fits d v → Fits d' v := by
  induction hbelow with
  | scalar tags =>
      intro v h
      rw [fits_scalar_iff] at h ⊢
      exact Coercion.accepts_of_below tags h
  | map declared wider ih =>
      intro v h
      rw [fits_map_iff] at h ⊢
      refine ⟨h.1, fun e he => ?_⟩
      obtain ⟨d, hd, hfits⟩ := h.2 e he
      obtain ⟨d', hd'⟩ := declared e.1 d hd
      exact ⟨d', hd', ih e.1 d d' hd hd' hfits⟩
  | array wider ih =>
      intro v h
      rw [fits_array_iff] at h ⊢
      exact ⟨h.1, fun x hx => ih (h.2 x hx)⟩
  | malformed =>
      intro v h
      exact absurd h not_fits_malformed

theorem fitsDocument_of_below {s s' : Schema} {v : Value} (hbelow : s.Below s')
    (h : FitsDocument s v) : FitsDocument s' v := by
  refine ⟨h.1, fun e he => ?_⟩
  obtain ⟨d, hd, hfits⟩ := h.2 e he
  obtain ⟨d', hd', hwider⟩ := hbelow e.1 d hd
  exact ⟨d', hd', fits_of_below hwider hfits⟩

theorem sanitizeValue_ok_of_fits {o : Options} {v : Value} {schema : Schema}
    (hreport : o.warnings = .report) (hdepth : v.depth ≤ o.maxDepth.toNat)
    (hfits : FitsDocument schema v) : ∃ r, sanitizeValue o v schema = .ok r := by
  obtain ⟨w, hnormal⟩ := exists_normalizeDocument_iff.mpr hfits
  refine ⟨⟨w, validate o.elementPaths v schema⟩, sanitizeValue_eq_ok_iff.mpr ?_⟩
  exact ⟨hdepth, hnormal, rfl, fun hreject => by simp [hreport] at hreject⟩

theorem sanitizeValue_ok_of_below {o : Options} {v : Value} {s s' : Schema}
    (hbelow : s.Below s') (hreport : o.warnings = .report)
    (h : ∃ r, sanitizeValue o v s = .ok r) : ∃ r, sanitizeValue o v s' = .ok r := by
  obtain ⟨r, hr⟩ := h
  obtain ⟨hdepth, hnormal, -⟩ := sanitizeValue_eq_ok_iff.mp hr
  have hfits : FitsDocument s v := exists_normalizeDocument_iff.mp ⟨r.value, hnormal⟩
  exact sanitizeValue_ok_of_fits hreport hdepth (fitsDocument_of_below hbelow hfits)

/-- What passes a schema without error passes every wider one: the validation of a
document stays free of errors, and where warnings are only reported the document,
given as a tree or as a text, is accepted again. -/
theorem accepted_under_wider_schema {s s' : Schema} (hbelow : s.Below s') :
    (∀ mode v, (¬ ∃ i ∈ validate mode v s, i.severity = .error) →
      ¬ ∃ i ∈ validate mode v s', i.severity = .error) ∧
    ∀ o : Options, o.warnings = .report →
      (∀ v, (∃ r, sanitizeValue o v s = .ok r) → ∃ r, sanitizeValue o v s' = .ok r) ∧
      ∀ text, (∃ r, sanitize o text s = .ok r) → ∃ r, sanitize o text s' = .ok r := by
  refine ⟨fun mode v h => ?_, fun o hreport => ⟨fun v => ?_, fun text => ?_⟩⟩
  · have hfits : FitsDocument s v := by
      rw [← noErrors_validate mode]
      simpa [NoErrors, Issue.isError] using h
    have hwider := (noErrors_validate mode).mpr (fitsDocument_of_below hbelow hfits)
    simpa [NoErrors, Issue.isError] using hwider
  · exact sanitizeValue_ok_of_below hbelow hreport
  · unfold sanitize
    cases Value.decode text with
    | error refusal => simp [bind, Except.bind]
    | ok v => exact sanitizeValue_ok_of_below hbelow hreport

theorem accepted_under_wider_schema_one_more_field :
    let s : Schema :=
      [("n", .scalar .int), ("m", .map [("p", .scalar .phone)]),
        ("none", .array (.malformed .unknownScalar .null))]
    let s' : Schema :=
      [("none", .array (.scalar .int)), ("n", .scalar .float),
        ("m", .map [("q", .scalar .int), ("p", .scalar .string)]), ("x", .scalar .int)]
    let v : Value := .mapping
      [("n", .unsigned 18446744073709551615), ("m", .mapping [("p", .string "+79502885623")]),
        ("none", .sequence [])]
    s.Below s' ∧ ∃ r, sanitizeValue { warnings := .report } v s' = .ok r := by
  intro s s' v
  have hmap : Schema.Below [("p", .scalar .phone)]
      [("q", .scalar .int), ("p", .scalar .string)] := by
    intro name d hd
    simp only [Members.get?] at hd ⊢
    split at hd
    · rename_i hname
      cases hd
      subst hname
      exact ⟨_, rfl, .scalar (.inr (.inl rfl))⟩
    · cases hd
  have hbelow : s.Below s' := by
    intro name d hd
    simp only [s, Members.get?] at hd
    split at hd
    · rename_i hname
      cases hd
      subst hname
      exact ⟨_, rfl, .scalar (.inr (.inr ⟨rfl, rfl⟩))⟩
    · split at hd
      · rename_i hname
        cases hd
        subst hname
        exact ⟨_, rfl, below_map_iff.mpr hmap⟩
      · split at hd
        · rename_i hname
          cases hd
          subst hname
          exact ⟨_, rfl, .array .malformed⟩
        · cases hd
  have hrun : sanitizeValue { warnings := .report } v s =
      .ok ⟨.mapping [("n", .unsigned 18446744073709551615),
        ("m", .mapping [("p", .string "79502885623")]), ("none", .sequence [])], []⟩ := by
    decide +kernel
  have hruns := ((accepted_under_wider_schema hbelow).2 { warnings := .report } rfl).1
  exact ⟨hbelow, hruns v ⟨_, hrun⟩⟩

end SchemaSieve
