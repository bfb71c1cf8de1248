import SchemaSieve.Proofs.Completeness
import SchemaSieve.Proofs.DecidableEquality

/-!
# Values that types ask for

A value fills a type if validation finds nothing to say about it, not even that a field is
missing.  Most types have such values: a leaf will do for a scalar, an empty sequence for an
array, and a map is filled field by field.  A mapping whose names are the
positions of its entries counts as a sequence, though.  With two fields or more another
order helps; a map of the single field `0` is left without any value, and with it every map
that has such a field.
-/

namespace SchemaSieve

open Value Validation Normalization

namespace Descriptor

/-- No part of the type is malformed, and no map declares a name twice. -/
inductive WellFormed : Descriptor → Prop
  | scalar (tag : ScalarTag) : WellFormed (.scalar tag)
  | map {fields : Schema} (names : fields.names.Nodup) (types : ∀ f ∈ fields, WellFormed f.2) :
      WellFormed (.map fields)
  | array {element : Descriptor} (wellFormed : WellFormed element) : WellFormed (.array element)

/-- Maps that need a map of the single field `0`.  An array needs nothing of its elements. -/
inductive Unfillable : Descriptor → Prop
  | onlyZero (d : Descriptor) : Unfillable (.map [("0", d)])
  | field {fields : Schema} {f : String × Descriptor} (declared : f ∈ fields)
      (below : Unfillable f.2) : Unfillable (.map fields)

end Descriptor

/-! ## Levels that are filled -/

namespace Validation

theorem checkField_eq_nil_congr (m n : ElementPaths) (p q : FieldPath) (v : Value)
    (d : Descriptor) : checkField m p v d = [] ↔ checkField n q v d = [] := by
  rw [← List.map_eq_nil_iff (f := Issue.code), codes_checkField (SameContents.refl v) p q d,
    List.map_eq_nil_iff]

theorem checkEntry_eq_nil_iff {mode : ElementPaths} {p : FieldPath} {schema : Schema}
    {e : String × Value} :
    checkEntry mode p schema e = [] ↔
      ∃ d, schema.get? e.1 = some d ∧ checkField mode (p.child e.1) e.2 d = [] := by
  unfold checkEntry
  cases schema.get? e.1 with
  | none => simp
  | some d => simp

end Validation

structure Fills (d : Descriptor) (v : Value) : Prop where
  distinct : v.DistinctNames
  clean : checkField .shared .root v d = []

structure FillsLevel (schema : Schema) (v : Value) : Prop where
  distinct : v.DistinctNames
  count : v.entries.length = schema.length
  fields : ∀ e ∈ v.entries, ∃ d, schema.get? e.1 = some d ∧ Fills d e.2

variable {schema : Schema} {v : Value}

theorem fillsLevel_iff (mode : ElementPaths) (p : FieldPath) :
    v.DistinctNames ∧
        checkCount p v schema ++ v.entries.flatMap (checkEntry mode p schema) = [] ↔
      FillsLevel schema v := by
  rw [List.append_eq_nil_iff, checkCount_eq_nil_iff, List.flatMap_eq_nil_iff]
  simp only [checkEntry_eq_nil_iff]
  constructor
  · rintro ⟨hdistinct, hcount, hentries⟩
    refine ⟨hdistinct, hcount, fun e he => ?_⟩
    obtain ⟨d, hd, hnone⟩ := hentries e he
    have hvalue := hdistinct.entries.2 e.2 (snd_mem_elements he)
    exact ⟨d, hd, hvalue, (checkField_eq_nil_congr _ _ _ _ _ _).mp hnone⟩
  · rintro ⟨hdistinct, hcount, hfields⟩
    refine ⟨hdistinct, hcount, fun e he => ?_⟩
    obtain ⟨d, hd, hfills⟩ := hfields e he
    exact ⟨d, hd, (checkField_eq_nil_congr _ _ _ _ _ _).mp hfills.clean⟩

theorem fills_map_iff : Fills (.map schema) v ↔ v.isMapping = true ∧ FillsLevel schema v := by
  rw [← fillsLevel_iff .shared .root]
  cases hshape : v.isMapping with
  | false =>
      simp only [Bool.false_eq_true, false_and, iff_false]
      rintro ⟨-, hclean⟩
      simp [checkField_map, hshape] at hclean
  | true =>
      constructor
      · rintro ⟨hdistinct, hclean⟩
        rw [checkField_map, if_pos hshape] at hclean
        exact ⟨rfl, hdistinct, hclean⟩
      · rintro ⟨-, hdistinct, hclean⟩
        refine ⟨hdistinct, ?_⟩
        rw [checkField_map, if_pos hshape]
        exact hclean

theorem validate_eq_nil_iff_fillsLevel {mode : ElementPaths} :
    v.DistinctNames ∧ validate mode v schema = [] ↔
      v.isContainer = true ∧ FillsLevel schema v := by
  rw [← fillsLevel_iff mode .root, validate_eq]
  cases v.isContainer with
  | false => simp
  | true => simp

theorem FillsLevel.names_perm (h : FillsLevel schema v) :
    (Members.names v.entries).Perm schema.names := by
  refine Members.perm_names_of_length_eq h.distinct.entries.1 ?_ h.count
  intro name hname
  obtain ⟨e, he, rfl⟩ := List.mem_map.mp hname
  obtain ⟨d, hd, -⟩ := h.fields e he
  exact Members.mem_names_of_get? hd

theorem FillsLevel.exists_fills (h : FillsLevel schema v) (hnames : schema.names.Nodup)
    {f : String × Descriptor} (hf : f ∈ schema) : ∃ w, Fills f.2 w := by
  have hname : f.1 ∈ Members.names v.entries :=
    h.names_perm.mem_iff.mpr (List.mem_map_of_mem hf)
  obtain ⟨e, he, hef⟩ := List.mem_map.mp hname
  obtain ⟨d, hd, hfills⟩ := h.fields e he
  rw [hef, Members.get?_of_mem hnames hf] at hd
  cases hd
  exact ⟨e.2, hfills⟩

/-! ## Filling a level -/

theorem fillsLevel_mapping {ms : List (String × Value)} (hschema : schema.names.Nodup)
    (hnames : (Members.names ms).Perm schema.names)
    (hfields : ∀ e ∈ ms, ∃ d, schema.get? e.1 = some d ∧ Fills d e.2) :
    FillsLevel schema (.mapping ms) := by
  refine ⟨.mapping (hnames.nodup_iff.mpr hschema) fun e he => ?_, ?_, hfields⟩
  · obtain ⟨d, -, hfills⟩ := hfields e he
    exact hfills.distinct
  · simpa [Members.names, entries] using hnames.length_eq

theorem exists_entries_of_fills (hschema : schema.names.Nodup)
    (hfills : ∀ f ∈ schema, ∃ w, Fills f.2 w) :
    ∃ ms : List (String × Value), Members.names ms = schema.names ∧
      ∀ e ∈ ms, ∃ d, schema.get? e.1 = some d ∧ Fills d e.2 := by
  have hentries : ∀ f ∈ schema, ∃ e : String × Value, e.1 = f.1 ∧ Fills f.2 e.2 := by
    intro f hf
    obtain ⟨w, hw⟩ := hfills f hf
    exact ⟨(f.1, w), rfl, hw⟩
  obtain ⟨ms, hms⟩ := exists_forall₂_iff.mpr hentries
  refine ⟨ms, map_eq_of_forall₂ (fun _ _ h => h.1) hms, fun e he => ?_⟩
  have hmem : List.Forall₂ (fun (f : String × Descriptor) (e : String × Value) =>
      f ∈ schema ∧ e.1 = f.1 ∧ Fills f.2 e.2) schema ms :=
    (List.forall₂_and_left schema ms).mpr ⟨fun _ hf => hf, hms⟩
  obtain ⟨f, -, hf, hname, hw⟩ := exists_mem_left_of_forall₂ hmem e he
  exact ⟨f.2, hname ▸ Members.get?_of_mem hschema hf, hw⟩

theorem names_of_indexedFrom {ms : List (String × Value)} (h : indexedFrom 0 ms = true) :
    Members.names ms = (List.range ms.length).map Decimal.natText := by
  have hnames := names_indexed 0 (ms.map Prod.snd)
  rwa [indexed_of_indexedFrom h, List.length_map, ← List.range_eq_range'] at hnames

theorem natText_zero : Decimal.natText 0 = "0" := by decide +kernel

theorem indexedFrom_reverse {ms : List (String × Value)} (h : indexedFrom 0 ms = true)
    (hlen : 2 ≤ ms.length) : indexedFrom 0 ms.reverse = false := by
  rw [Bool.eq_false_iff]
  intro hreverse
  have hback := names_of_indexedFrom hreverse
  rw [List.length_reverse, Members.names, List.map_reverse] at hback
  have hforth := names_of_indexedFrom h
  rw [Members.names] at hforth
  rw [hforth, ← List.map_reverse] at hback
  have hrange := (List.map_injective_iff.mpr Decimal.natText_injective) hback
  obtain ⟨n, hn⟩ : ∃ n, ms.length = n + 2 := ⟨ms.length - 2, by omega⟩
  have hhead := congrArg List.head? hrange
  rw [hn, List.head?_reverse, List.getLast?_range, List.head?_range] at hhead
  simp at hhead

theorem exists_perm_isMapping {ms : List (String × Value)} (h : Members.names ms ≠ ["0"]) :
    ∃ ns, ns.Perm ms ∧ (Value.mapping ns).isMapping = true := by
  by_cases hshape : (Value.mapping ms).isMapping = true
  · exact ⟨ms, .rfl, hshape⟩
  · rw [isMapping_mapping_iff, not_or, Bool.not_eq_false] at hshape
    obtain ⟨hne, hindexed⟩ := hshape
    refine ⟨ms.reverse, List.reverse_perm ms, isMapping_mapping_iff.mpr (.inr ?_)⟩
    apply indexedFrom_reverse hindexed
    have hpos := List.length_pos_iff.mpr hne
    have hone : ms.length ≠ 1 := by
      intro hlen
      have hnames := names_of_indexedFrom hindexed
      rw [hlen, List.range_one, List.map_singleton, natText_zero] at hnames
      exact h hnames
    omega

/-! ## Types that are filled -/

theorem fills_scalar {tag : ScalarTag} (hleaf : v.isContainer = false)
    (haccepts : Coercion.accepts tag v = true) : Fills (.scalar tag) v := by
  refine ⟨.scalar hleaf, ?_⟩
  rw [checkField_scalar, checkScalar, if_pos haccepts]

theorem exists_fills_scalar (tag : ScalarTag) : ∃ v, Fills (.scalar tag) v := by
  cases tag with
  | int | float | string => exact ⟨.integer 0, fills_scalar rfl rfl⟩
  | phone => exact ⟨.string "79502885623", fills_scalar rfl (by decide)⟩

theorem fills_array_empty (element : Descriptor) : Fills (.array element) (.sequence []) := by
  refine ⟨.sequence (by simp), ?_⟩
  rw [checkField_array]
  simp [isSequence, elements]

theorem not_fills_of_unfillable {d : Descriptor} (hd : d.WellFormed) (h : d.Unfillable) :
    ∀ v, ¬ Fills d v := by
  induction h with
  | onlyZero d =>
      intro v hfills
      obtain ⟨hshape, hlevel⟩ := fills_map_iff.mp hfills
      have hnames : Members.names v.entries = ["0"] := List.perm_singleton.mp hlevel.names_perm
      rw [isMapping_eq (isContainer_of_isMapping hshape)] at hshape
      obtain ⟨e, hentries, hname⟩ := List.map_eq_singleton_iff.mp hnames
      simp [hentries, indexedFrom, hname, natText_zero] at hshape
  | @field fields f declared below ih =>
      intro v hfills
      cases hd with
      | map names types =>
          obtain ⟨w, hw⟩ := (fills_map_iff.mp hfills).2.exists_fills names declared
          exact ih (types f declared) w hw

theorem exists_fills_map (hschema : schema.names.Nodup) (hzero : schema.names ≠ ["0"])
    (hfills : ∀ f ∈ schema, ∃ w, Fills f.2 w) : ∃ v, Fills (.map schema) v := by
  obtain ⟨ms, hnames, hfields⟩ := exists_entries_of_fills hschema hfills
  obtain ⟨ns, hperm, hshape⟩ := exists_perm_isMapping (hnames ▸ hzero)
  refine ⟨.mapping ns, fills_map_iff.mpr ⟨hshape, fillsLevel_mapping hschema ?_ ?_⟩⟩
  · rw [← hnames]
    exact hperm.map Prod.fst
  · exact fun e he => hfields e (hperm.mem_iff.mp he)

theorem ne_zero_of_not_unfillable (h : ¬ (Descriptor.map schema).Unfillable) :
    schema.names ≠ ["0"] := by
  intro hnames
  obtain ⟨f, rfl, hname⟩ := List.map_eq_singleton_iff.mp hnames
  exact h (Prod.eta f ▸ hname ▸ .onlyZero f.2)

theorem exists_fills_iff {d : Descriptor} (hd : d.WellFormed) :
    (∃ v, Fills d v) ↔ ¬ d.Unfillable := by
  constructor
  · rintro ⟨v, hfills⟩ h
    exact not_fills_of_unfillable hd h v hfills
  · intro h
    induction hd with
    | scalar tag => exact exists_fills_scalar tag
    | map names types ih =>
        apply exists_fills_map names (ne_zero_of_not_unfillable h)
        exact fun f hf => ih f hf fun hbelow => h (.field hf hbelow)
    | array wellFormed ih => exact ⟨_, fills_array_empty _⟩

/-! ## Schemas that are satisfied -/

theorem exists_fillsLevel (hschema : (Descriptor.map schema).WellFormed)
    (hfields : ∀ f ∈ schema, ¬ f.2.Unfillable) :
    ∃ ms : List (String × Value), FillsLevel schema (.mapping ms) := by
  cases hschema with
  | map names types =>
      obtain ⟨ms, hnames, hentries⟩ := exists_entries_of_fills names fun f hf =>
        (exists_fills_iff (types f hf)).mpr (hfields f hf)
      exact ⟨ms, fillsLevel_mapping names (.of_eq hnames) hentries⟩

theorem exists_sanitized_of_validate {o : Options} (hdepth : v.depth ≤ o.maxDepth.toNat)
    (hclean : validate o.elementPaths v schema = []) :
    ∃ r, sanitizeValue o v schema = .ok r := by
  have hfits : FitsDocument schema v := by
    rw [← noErrors_validate o.elementPaths, hclean]
    exact noErrors_nil
  obtain ⟨w, hw⟩ := exists_normalizeDocument_iff.mpr hfits
  exact ⟨⟨w, []⟩, sanitizeValue_eq_ok_iff.mpr ⟨hdepth, hw, hclean.symm, fun _ => rfl⟩⟩

theorem fillsLevel_of_sanitizeValue {o : Options} {r : Sanitized}
    (hreject : o.warnings = .reject) (hdistinct : v.DistinctNames)
    (h : sanitizeValue o v schema = .ok r) : FillsLevel schema v := by
  obtain ⟨-, -, hwarnings, hnone⟩ := sanitizeValue_eq_ok_iff.mp h
  exact (validate_eq_nil_iff_fillsLevel.mp ⟨hdistinct, hwarnings ▸ hnone hreject⟩).2

theorem not_sanitized_of_unfillable {o : Options} (hschema : (Descriptor.map schema).WellFormed)
    {f : String × Descriptor} (hf : f ∈ schema) (hunfillable : f.2.Unfillable)
    (hreject : o.warnings = .reject) (hdistinct : v.DistinctNames) (r : Sanitized) :
    sanitizeValue o v schema ≠ .ok r := by
  intro h
  cases hschema with
  | map names types =>
      obtain ⟨w, hw⟩ :=
        (fillsLevel_of_sanitizeValue hreject hdistinct h).exists_fills names hf
      exact not_fills_of_unfillable (types f hf) hunfillable w hw

theorem unfillable_map_iff :
    (Descriptor.map schema).Unfillable ↔ schema.names = ["0"] ∨ ∃ f ∈ schema, f.2.Unfillable := by
  constructor
  · intro h
    cases h with
    | onlyZero d => exact .inl rfl
    | field declared below => exact .inr ⟨_, declared, below⟩
  · rintro (hzero | ⟨f, hf, hbelow⟩)
    · exact by_contra fun h => ne_zero_of_not_unfillable h hzero
    · exact .field hf hbelow

theorem fills_map_iff_names :
    Fills (.map schema) v ↔
      v.DistinctNames ∧ (∀ name, name ∈ Members.names v.entries ↔ name ∈ schema.names) ∧
        ∀ mode path, checkField mode path v (.map schema) = [] := by
  constructor
  · intro h
    refine ⟨h.distinct, fun name => ?_, fun mode path => ?_⟩
    · exact (fills_map_iff.mp h).2.names_perm.mem_iff
    · exact (checkField_eq_nil_congr _ _ _ _ _ _).mp h.clean
  · rintro ⟨hdistinct, -, hclean⟩
    exact ⟨hdistinct, hclean _ _⟩

/-- A well-formed schema is satisfied by some document, even while warnings are rejected,
unless a field of it needs a map of the single field `0`; then by none.  A map of declared
names likewise has a value of exactly these names unless it is, or needs, such a map. -/
theorem schema_satisfiable (hschema : (Descriptor.map schema).WellFormed) :
    ((∀ f ∈ schema, ¬ f.2.Unfillable) →
      ∃ v : Value, v.DistinctNames ∧ (∀ mode, validate mode v schema = []) ∧
        ∀ o : Options, o.warnings = .reject → v.depth ≤ o.maxDepth.toNat →
          ∃ r, sanitizeValue o v schema = .ok r) ∧
    ((∃ f ∈ schema, f.2.Unfillable) →
      ∀ v : Value, v.DistinctNames → ∀ o : Options, o.warnings = .reject →
        ∀ r, sanitizeValue o v schema ≠ .ok r) ∧
    ((∃ v : Value, v.DistinctNames ∧
        (∀ name, name ∈ Members.names v.entries ↔ name ∈ schema.names) ∧
        ∀ mode path, checkField mode path v (.map schema) = []) ↔
      schema.names ≠ ["0"] ∧ ∀ f ∈ schema, ¬ f.2.Unfillable) := by
  refine ⟨fun hfields => ?_, ?_, ?_⟩
  · obtain ⟨ms, hlevel⟩ := exists_fillsLevel hschema hfields
    have hclean : ∀ mode, validate mode (.mapping ms) schema = [] := fun mode =>
      (validate_eq_nil_iff_fillsLevel.mpr ⟨rfl, hlevel⟩).2
    exact ⟨.mapping ms, hlevel.distinct, hclean,
      fun o _ hdepth => exists_sanitized_of_validate hdepth (hclean _)⟩
  · rintro ⟨f, hf, hunfillable⟩ v hdistinct o hreject r
    exact not_sanitized_of_unfillable hschema hf hunfillable hreject hdistinct r
  · simp only [← fills_map_iff_names, exists_fills_iff hschema, unfillable_map_iff]
    simp only [not_or, not_exists, not_and, ne_eq]

theorem schema_satisfiable_two_positions :
    let schema : Schema :=
      [("m", .map [("0", .scalar .int), ("1", .array (.map [("0", .scalar .phone)]))])]
    (Descriptor.map schema).WellFormed ∧ (∀ f ∈ schema, ¬ f.2.Unfillable) ∧
      ∃ v : Value, v.DistinctNames ∧ (∀ mode, validate mode v schema = []) ∧
        ∀ o : Options, o.warnings = .reject → v.depth ≤ o.maxDepth.toNat →
          ∃ r, sanitizeValue o v schema = .ok r := by
  intro schema
  have hrow : (Descriptor.map [("0", .scalar .phone)]).WellFormed :=
    .map (by decide) (by simp [Descriptor.WellFormed.scalar])
  have hm : (Descriptor.map
      [("0", .scalar .int), ("1", .array (.map [("0", .scalar .phone)]))]).WellFormed :=
    .map (by decide) (by simp [Descriptor.WellFormed.scalar, Descriptor.WellFormed.array hrow])
  have hschema : (Descriptor.map schema).WellFormed := .map (by decide) (by simpa [schema] using hm)
  have hfields : ∀ f ∈ schema, ¬ f.2.Unfillable := by
    intro f hf
    rw [List.mem_singleton.mp hf, unfillable_map_iff]
    rintro (hnames | ⟨g, hg, hbelow⟩)
    · simp [Members.names] at hnames
    · simp only [List.mem_cons, List.not_mem_nil, or_false] at hg
      rcases hg with rfl | rfl <;> cases hbelow
  exact ⟨hschema, hfields, (schema_satisfiable hschema).1 hfields⟩

/-- The one entry of such a map is always an element of a sequence. -/
theorem no_document_with_only_zero :
    let schema : Schema := [("m", .map [("0", .scalar .int)])]
    (Descriptor.map schema).WellFormed ∧
      ∀ v : Value, v.DistinctNames → ∀ o : Options, o.warnings = .reject →
        ∀ r, sanitizeValue o v schema ≠ .ok r := by
  intro schema
  have hm : (Descriptor.map [("0", .scalar .int)]).WellFormed :=
    .map (by decide) (by simp [Descriptor.WellFormed.scalar])
  have hschema : (Descriptor.map schema).WellFormed :=
    .map (by decide) (by simpa [schema] using hm)
  refine ⟨hschema, fun v hdistinct o hreject r => ?_⟩
  exact not_sanitized_of_unfillable hschema (List.mem_singleton.mpr rfl) (.onlyZero _)
    hreject hdistinct r

end SchemaSieve
