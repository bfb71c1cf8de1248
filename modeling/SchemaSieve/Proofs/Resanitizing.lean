import SchemaSieve.Proofs.DecidableEquality
import SchemaSieve.Proofs.Equality
import SchemaSieve.Proofs.Idempotence
import SchemaSieve.Proofs.ValueTexts

/-!
# Sanitizing the emitted text

The text of a normal form decodes to the normal form with each double as its own text is
read.  That changes no name and no shape, and every double stays finite, so the text is
sanitized without a new issue, and nothing but doubles is changed by it.
-/

namespace SchemaSieve

open Value Validation Normalization

/-! ## Equal up to doubles -/

namespace Value

variable {f : Double → Double}

theorem equal_mapFloats_iff {v : Value} (h : v.DistinctNames) :
    (v.mapFloats f).equal v = true ↔ ∀ y ∈ v.leaves, ∀ x, y = .float x → (f x).equal x = true := by
  refine leafwise_mapFloats.equal_iff (fun y hy => ?_) h
  cases y with
  | float x => simp [mapFloats, equal]
  | sequence xs => cases hy
  | mapping ms => cases hy
  | _ => simp [mapFloats, equal]

end Value

/-! ## Normal forms with other doubles -/

theorem accepts_of_isCanonical {tag : ScalarTag} {w : Value} (h : Coercion.IsCanonical tag w) :
    Coercion.accepts tag w = true := by
  rw [Coercion.accepts, Coercion.coerce?_of_isCanonical h]
  rfl

section MapFloats

variable {f : Double → Double} (hf : ∀ x : Double, x.isFinite = true → (f x).isFinite = true)

include hf

theorem isCanonical_mapFloats {tag : ScalarTag} {w : Value} (h : Coercion.IsCanonical tag w) :
    Coercion.IsCanonical tag (w.mapFloats f) := by
  cases h with
  | integer i => exact .integer i
  | unsigned u => exact .unsigned u
  | float x finite => exact .float (f x) (hf x finite)
  | string s => exact .string s
  | phone s canonical => exact .phone s canonical

theorem conforms_mapFloats {d : Descriptor} {w : Value} (h : Conforms d w) :
    Conforms d (w.mapFloats f) := by
  induction h with
  | scalar canonical => exact .scalar (isCanonical_mapFloats hf canonical)
  | @map schema fields shape declared conforming ih =>
      rw [mapFloats_mapping]
      refine conforms_map_iff.mpr ⟨?_, fun e he => ?_⟩
      · refine isMapping_of_names (v := .mapping fields) (isMapping_mapping_iff.mpr shape) ?_
        exact Members.names_map (mapFloats f) fields
      · obtain ⟨m, hm, rfl⟩ := List.mem_map.mp he
        obtain ⟨d, hd⟩ := declared m hm
        exact ⟨d, hd, ih m hm d hd⟩
  | array conforming ih =>
      rw [mapFloats_sequence]
      refine .array fun y hy => ?_
      obtain ⟨x, hx, rfl⟩ := List.mem_map.mp hy
      exact ih x hx

theorem conformsDocument_mapFloats {schema : Schema} {w : Value} (h : ConformsDocument schema w) :
    ConformsDocument schema (w.mapFloats f) := by
  refine ⟨by rw [isContainer_mapFloats]; exact h.1, fun e he => ?_⟩
  rw [entries_mapFloats] at he
  obtain ⟨m, hm, rfl⟩ := List.mem_map.mp he
  obtain ⟨d, hd, hconforms⟩ := h.2 m hm
  exact ⟨d, hd, conforms_mapFloats hf hconforms⟩

theorem sameIssues_mapFloats (mode : ElementPaths) {d : Descriptor} {w : Value}
    (h : Conforms d w) : SameIssues mode d w (w.mapFloats f) := by
  induction h with
  | scalar canonical =>
      exact sameIssues_scalar (accepts_of_isCanonical canonical)
        (accepts_of_isCanonical (isCanonical_mapFloats hf canonical))
  | @map schema fields shape declared conforming ih =>
      have hmapping := isMapping_mapping_iff.mpr shape
      refine sameIssues_map hmapping ?_
        (isMapping_of_names hmapping (names_entries_mapFloats (.mapping fields)))
      rw [entries_mapFloats, List.forall₂_map_right_iff, List.forall₂_same]
      intro e he
      obtain ⟨d, hd⟩ := declared e he
      exact ⟨rfl, d, hd, ih e he d hd⟩
  | @array element items conforming ih =>
      refine sameIssues_array rfl ?_ rfl
      rw [elements_mapFloats, List.forall₂_map_right_iff, List.forall₂_same]
      exact ih

theorem sanitizeValue_mapFloats {o : Options} {v : Value} {schema : Schema} {r : Sanitized}
    (h : sanitizeValue o v schema = .ok r) :
    sanitizeValue o (r.value.mapFloats f) schema = .ok ⟨r.value.mapFloats f, r.warnings⟩ := by
  obtain ⟨hdepth, hnormal, hwarnings, hpolicy⟩ :=
    sanitizeValue_eq_ok_iff.mp (sanitizeValue_idempotent h)
  have hconforms := conformsDocument_of_normalizeDocument hnormal
  have hroot : r.value.mapFloats f ≠ .sequence [] := by
    intro hnil
    refine ne_sequence_nil_of_normalizeDocument hnormal ?_
    cases hr : r.value with
    | sequence xs =>
        rw [hr, mapFloats_sequence, sequence.injEq, List.map_eq_nil_iff] at hnil
        rw [hnil]
    | _ => simp [hr, mapFloats] at hnil
  refine sanitizeValue_eq_ok_iff.mpr ⟨?_, ?_, ?_, hpolicy⟩
  · rw [depth_eq_nesting, nesting_mapFloats, ← depth_eq_nesting]
    exact hdepth
  · exact normalizeDocument_of_conformsDocument (conformsDocument_mapFloats hf hconforms) hroot
  · rw [hwarnings]
    refine (validate_of_sameEntryIssues hconforms.1 ?_ ?_).symm
    · rw [entries_mapFloats, List.forall₂_map_right_iff, List.forall₂_same]
      intro e he
      obtain ⟨d, hd, hentry⟩ := hconforms.2 e he
      exact ⟨rfl, d, hd, sameIssues_mapFloats hf o.elementPaths hentry⟩
    · rw [isContainer_mapFloats]
      exact hconforms.1

end MapFloats

/-! ## Normal forms have distinct names -/

theorem distinctNames_of_entries {v : Value} (hnames : (Members.names v.entries).Nodup)
    (h : ∀ x ∈ v.elements, x.DistinctNames) : v.DistinctNames := by
  cases v with
  | sequence xs => exact .sequence h
  | mapping ms => exact .mapping hnames fun m hm => h m.2 (List.mem_map_of_mem hm)
  | _ => exact .scalar rfl

theorem distinctNames_of_isNormalForm {d : Descriptor} {v w : Value} (h : IsNormalForm d v w) :
    v.DistinctNames → w.DistinctNames := by
  induction h using IsNormalForm.induction with
  | scalar tag v w h hcoerce =>
      intro _
      exact .scalar (isContainer_of_isCanonical (Coercion.isCanonical_of_coerce? hcoerce))
  | map schema v fields h hshape hfields =>
      intro hv
      obtain ⟨hnames, helements⟩ := hv.entries
      refine .mapping (by rwa [names_of_isNormalForm_map h]) fun f hf => ?_
      obtain ⟨e, he, -, d, -, -, ih⟩ := exists_mem_left_of_forall₂ hfields f hf
      exact ih (helements _ (snd_mem_elements he))
  | array element v items h hshape hitems =>
      intro hv
      refine .sequence fun y hy => ?_
      obtain ⟨x, hx, -, ih⟩ := exists_mem_left_of_forall₂ hitems y hy
      exact ih (hv.entries.2 x hx)

theorem distinctNames_of_normalizeDocument {v w : Value} {schema : Schema}
    (h : normalizeDocument v schema = .ok w) (hv : v.DistinctNames) : w.DistinctNames := by
  obtain ⟨-, -, hfields⟩ := fields_of_normalizeDocument h
  obtain ⟨hnames, helements⟩ := hv.entries
  refine distinctNames_of_entries (by rwa [names_of_fieldForm hfields]) fun y hy => ?_
  rw [elements_eq_map_entries] at hy
  obtain ⟨f, hf, rfl⟩ := List.mem_map.mp hy
  obtain ⟨e, he, -, d, -, hform⟩ := exists_mem_left_of_forall₂ hfields f hf
  exact distinctNames_of_isNormalForm hform (helements _ (snd_mem_elements he))

/-! ## Texts sanitized twice -/

theorem isFinite_of_sanitize {o : Options} {text : String} {schema : Schema} {r : Sanitized}
    (h : sanitize o text schema = .ok r) :
    ∀ y ∈ r.value.leaves, ∀ x, y = .float x → x.isFinite = true := by
  rintro y hy x rfl
  obtain ⟨v, -, hrun⟩ := sanitize_eq_ok_iff.mp h
  obtain ⟨-, hnormal, -⟩ := sanitizeValue_eq_ok_iff.mp hrun
  obtain ⟨tag, hcanonical⟩ :=
    leaves_of_conformsDocument (conformsDocument_of_normalizeDocument hnormal) _ hy
  cases hcanonical with
  | float x finite => exact finite

theorem distinctNames_of_sanitize {o : Options} {text : String} {schema : Schema} {r : Sanitized}
    (h : sanitize o text schema = .ok r) : r.value.DistinctNames := by
  obtain ⟨v, hdecode, hrun⟩ := sanitize_eq_ok_iff.mp h
  obtain ⟨-, hnormal, -⟩ := sanitizeValue_eq_ok_iff.mp hrun
  exact distinctNames_of_normalizeDocument hnormal (distinctNames_of_decode hdecode)

theorem decode_text_of_sanitize {o : Options} {text : String} {schema : Schema} {r : Sanitized}
    (h : sanitize o text schema = .ok r) : Value.decode r.value.text = .ok r.value.reread := by
  obtain ⟨v, hdecode, hrun⟩ := sanitize_eq_ok_iff.mp h
  obtain ⟨-, hnormal, -⟩ := sanitizeValue_eq_ok_iff.mp hrun
  refine decode_text (distinctNames_of_sanitize h) ?_ (isFinite_of_sanitize h)
    (unsignedAreLarge_of_normalizeDocument hnormal (unsignedAreLarge_of_decode hdecode))
  rw [← depth_eq_nesting, depth_of_normalizeDocument hnormal, depth_eq_nesting]
  exact nesting_of_decode hdecode

theorem decode_text_float {x : Double} (hx : x.isFinite = true) :
    Value.decode (Value.float x).text = .ok (.float x.reread) := by
  refine decode_text (.scalar rfl) (Nat.zero_le _) ?_ ?_
  · simpa [leaves] using hx
  · simp [UnsignedAreLarge, leaves]

theorem sanitize_of_float_field {text : String} {v : Value} {x : Double}
    (hdecode : Value.decode text = .ok (.mapping [("x", v)])) (hleaf : v.isContainer = false)
    (hx : Coercion.toFloat? v = some x) :
    sanitize {} text [("x", .scalar .float)] = .ok ⟨.mapping [("x", .float x)], []⟩ := by
  have hcoerce : Coercion.coerce? .float v = some (.float x) := by simp [Coercion.coerce?, hx]
  refine sanitize_eq_ok_iff.mpr ⟨_, hdecode, sanitizeValue_eq_ok_iff.mpr ⟨?_, ?_, ?_, fun _ => rfl⟩⟩
  · rw [depth_eq_nesting, nesting, nestingMembers, nestingMembers, nesting_of_not_container hleaf]
    decide
  · refine normalizeDocument_eq_ok.mpr ⟨rfl, [("x", .float x)], .cons ?_ .nil, rfl⟩
    exact ⟨rfl, .scalar .float, rfl, isNormalForm_scalar.mpr hcoerce⟩
  · simp [validate, isContainer, checkCount, entries, checkEntries, Members.get?,
      checkField_scalar, checkScalar, Coercion.accepts, hcoerce]

theorem resanitize_text {o : Options} {text : String} {schema : Schema} {r : Sanitized}
    (h : sanitize o text schema = .ok r) :
    sanitize o r.value.text schema = .ok ⟨r.value.reread, r.warnings⟩ := by
  obtain ⟨v, -, hrun⟩ := sanitize_eq_ok_iff.mp h
  refine sanitize_eq_ok_iff.mpr ⟨r.value.reread, decode_text_of_sanitize h, ?_⟩
  exact sanitizeValue_mapFloats (fun _ => Double.isFinite_reread) hrun

/-- Sanitizing the emitted text gives what was emitted, with each double as its own text is
read.  What is read from the text of a finite double is a finite double of the same sign, at
most a few magnitudes away, and the same one if its digits make a small integer and a small
power of ten. -/
theorem sanitize_text (o : Options) :
    (∀ (text : String) (schema : Schema) (r : Sanitized), sanitize o text schema = .ok r →
      sanitize o r.value.text schema = .ok ⟨r.value.reread, r.warnings⟩ ∧
        (∀ x, .float x ∈ r.value.leaves → x.isFinite = true) ∧
        (r.value.reread = r.value ↔ ∀ x, .float x ∈ r.value.leaves → x.reread = x) ∧
        (r.value.reread.equal r.value = true ↔ r.value.reread = r.value)) ∧
    ∀ x : Double, x.isFinite = true →
      Value.decode (Value.float x).text = .ok (.float x.reread) ∧
        x.reread.isFinite = true ∧ x.reread.negative = x.negative ∧
        x.reread.magnitude ≤ x.magnitude + Double.drift (x.shortest .even).literal.2 ∧
        x.magnitude ≤ x.reread.magnitude + Double.drift (x.shortest .even).literal.2 ∧
        ((x.shortest .even).literal.1 ≤ 2 ^ 53 → (x.shortest .even).literal.2.natAbs ≤ 22 →
          x.reread = x) := by
  constructor
  · intro text schema r h
    have hfinite := isFinite_of_sanitize h
    refine ⟨resanitize_text h, fun x hx => hfinite _ hx x rfl, ?_, ?_⟩
    · rw [reread, mapFloats_eq_self_iff]
      constructor
      · exact fun hall x hx => hall _ hx x rfl
      · rintro hall y hy x rfl
        exact hall x hy
    · rw [reread, equal_mapFloats_iff (distinctNames_of_sanitize h), mapFloats_eq_self_iff]
      refine forall₂_congr fun y hy => forall₂_congr fun x hx => ?_
      exact Double.equal_iff_of_negative (Double.isFinite_reread (hfinite y hy x hx))
        (Double.negative_reread (hfinite y hy x hx))
  · intro x hfinite
    obtain ⟨habove, hbelow⟩ := Double.near_reread hfinite
    exact ⟨decode_text_float hfinite, Double.isFinite_reread hfinite,
      Double.negative_reread hfinite, habove, hbelow, Double.reread_of_small hfinite⟩

theorem sanitize_text_tenth :
    let text := "\x7b\"n\":\"7\",\"x\":\"1e-1\"\x7d"
    let schema : Schema := [("n", .scalar .int), ("x", .scalar .float)]
    let x : Double := ⟨0x3fb999999999999a⟩
    let r : Sanitized := ⟨.mapping [("n", .integer 7), ("x", .float x)], []⟩
    sanitize {} text schema = .ok r ∧ x.reread = x ∧ sanitize {} r.value.text schema = .ok r := by
  intro text schema x r
  have hrun : sanitize {} text schema = .ok r := by decide +kernel
  obtain ⟨hagain, -, hsame, -⟩ := (sanitize_text {}).1 text schema r hrun
  obtain ⟨-, -, -, -, -, hexact⟩ := (sanitize_text {}).2 x (by decide)
  have hx : x.reread = x := hexact (by decide +kernel) (by decide +kernel)
  have hvalue : r.value.reread = r.value := by
    refine hsame.mpr fun y hy => ?_
    have hleaves : r.value.leaves = [.integer 7, .float x] := rfl
    simp only [hleaves, List.mem_cons, reduceCtorEq, List.not_mem_nil, or_false, false_or] at hy
    cases hy
    exact hx
  rw [hvalue] at hagain
  exact ⟨hrun, hx, hagain⟩

/-- The greatest integer of fifty-three bits: written with a point and a zero, its digits make
an integer that is no double, and the text is read as the double below. -/
theorem sanitize_text_changes_double :
    ¬ ∀ (text : String) (schema : Schema) (r : Sanitized), sanitize {} text schema = .ok r →
      ∃ r' : Sanitized, sanitize {} r.value.text schema = .ok r' ∧
        r'.value.equal r.value = true := by
  intro h
  let x : Double := ⟨0x433fffffffffffff⟩
  let y : Double := ⟨0x433ffffffffffffe⟩
  have hdecode : Value.decode "\x7b\"x\":9007199254740991\x7d" =
      .ok (.mapping [("x", .integer 9007199254740991)]) := by decide +kernel
  have hrun := sanitize_of_float_field (x := x) hdecode rfl (by decide +kernel)
  have hreread : (Value.mapping [("x", .float x)]).reread = .mapping [("x", .float y)] := by
    have hx : x.reread = y := by decide +kernel
    simp [reread, mapFloats, mapFloatsMembers, hx]
  have hdecode' := decode_text_of_sanitize hrun
  rw [hreread] at hdecode'
  have hagain := sanitize_of_float_field (x := y) hdecode' rfl (by decide +kernel)
  obtain ⟨r', hr', hequal⟩ := h _ _ _ hrun
  cases hagain.symm.trans hr'
  exact absurd hequal (by decide)

end SchemaSieve
