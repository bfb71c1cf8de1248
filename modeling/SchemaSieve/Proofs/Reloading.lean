import SchemaSieve.Normalization
import SchemaSieve.Proofs.DecidableEquality
import SchemaSieve.Proofs.Equality
import SchemaSieve.Proofs.NormalForm
import SchemaSieve.Proofs.RawForms
import SchemaSieve.Proofs.SchemaTexts

/-!
# Reloading schemas

A schema that is put together piece by piece may hold what no fragment is classified as: an
array whose element is malformed.  Written out and read back, such an array is malformed as a
whole, with the arrays around it, and the fragment kept is its own raw form.  Every other part
comes back as it was.

The parts of a built schema are `Genuine`: maps declare no name twice, and a malformed part is
one that classification made.  This is all that the proofs use.
-/

namespace SchemaSieve

open Normalization

namespace Descriptor

/-- Types put together from scalars, arrays of any element, maps field by field or at once, and
classified fragments. -/
inductive Built : Descriptor → Prop
  | scalar (tag : ScalarTag) : Built (.scalar tag)
  | array {element : Descriptor} (built : Built element) : Built (.array element)
  | noFields : Built (.map [])
  | field {schema : Schema} {d : Descriptor} (name : String) (built : Built (.map schema))
      (type : Built d) : Built (.map (schema.put name d))
  | map {pairs : List (String × Descriptor)} (types : ∀ p ∈ pairs, Built p.2) :
      Built (.map (Members.ofPairs pairs))
  | classified {raw : Json} (names : raw.DistinctNames) : Built (classify raw)

/-- Maps declare no name twice, and malformed parts are as they were classified. -/
inductive Genuine : Descriptor → Prop
  | scalar (tag : ScalarTag) : Genuine (.scalar tag)
  | map {fields : Schema} (names : fields.names.Nodup) (types : ∀ f ∈ fields, Genuine f.2) :
      Genuine (.map fields)
  | array {element : Descriptor} (genuine : Genuine element) : Genuine (.array element)
  | malformed {defect : Defect} {raw : Json} (names : raw.DistinctNames)
      (kept : classify raw = .malformed defect raw) : Genuine (.malformed defect raw)

def innermost : Descriptor → Descriptor
  | .array element => element.innermost
  | d => d

mutual
/-- The type with each chain of arrays that ends in a malformed one as one malformed array. -/
def collapse : Descriptor → Descriptor
  | .map fields => .map (collapseFields fields)
  | .array element =>
      if element.innermost.isWellFormed then .array element.collapse
      else .malformed .array (Descriptor.array element).toJson
  | d => d

def collapseFields : List (String × Descriptor) → List (String × Descriptor)
  | [] => []
  | (name, d) :: fields => (name, d.collapse) :: collapseFields fields
end

def ChainsWellFormed (d : Descriptor) : Prop :=
  ∀ place element, StandsAt (.array element) place d → element.innermost.isWellFormed = true

/-! ## Parts of built types -/

theorem genuine_put {schema : Schema} {d : Descriptor} (name : String)
    (hschema : (Descriptor.map schema).Genuine) (hd : d.Genuine) :
    (Descriptor.map (schema.put name d)).Genuine := by
  cases hschema with
  | map names types =>
      refine .map (Members.nodup_names_put name d names) fun f hf => ?_
      rcases Members.mem_put hf with hold | rfl
      · exact types f hold
      · exact hd

theorem genuine_foldl_put {pairs : List (String × Descriptor)} {schema : Schema}
    (hschema : (Descriptor.map schema).Genuine) (hpairs : ∀ p ∈ pairs, p.2.Genuine) :
    (Descriptor.map (pairs.foldl (fun ms p => Members.put ms p.1 p.2) schema)).Genuine := by
  induction pairs generalizing schema with
  | nil => exact hschema
  | cons p pairs ih =>
      obtain ⟨hp, hpairs⟩ := List.forall_mem_cons.mp hpairs
      exact ih (genuine_put p.1 hschema hp) hpairs

theorem distinctNames_mapRaw_iff {fields : List (String × Json)} :
    (mapRaw (.object fields)).DistinctNames ↔
      (Members.names fields).Nodup ∧ ∀ f ∈ fields, f.2.DistinctNames := by
  constructor
  · intro h
    cases h with
    | scalar leaf => cases leaf
    | array items =>
        cases items (.object fields) (by simp) with
        | scalar leaf => cases leaf
        | object names values => exact ⟨names, values⟩
  · rintro ⟨hnames, hvalues⟩
    refine .array fun x hx => ?_
    rcases List.mem_pair.mp hx with rfl | rfl
    · exact .scalar trivial
    · exact .object hnames hvalues

theorem distinctNames_arrayRaw_iff {element : Json} :
    (arrayRaw element).DistinctNames ↔ element.DistinctNames := by
  constructor
  · intro h
    cases h with
    | scalar leaf => cases leaf
    | array items => exact items element (by simp)
  · intro h
    refine .array fun x hx => ?_
    rcases List.mem_pair.mp hx with rfl | rfl
    · exact .scalar trivial
    · exact h

theorem genuine_classify {raw : Json} (h : raw.DistinctNames) : (classify raw).Genuine := by
  induction raw using raw_induction with
  | scalar tag =>
      rw [classify_scalarRaw]
      exact .scalar tag
  | map fields ih =>
      obtain ⟨hnames, hvalues⟩ := distinctNames_mapRaw_iff.mp h
      rw [classify_mapRaw_object]
      refine .map ((Members.names_map classify fields).symm ▸ hnames) fun f hf => ?_
      obtain ⟨r, hr, rfl⟩ := List.mem_map.mp hf
      exact ih r hr (hvalues r hr)
  | emptyMap => exact .map List.nodup_nil (by simp)
  | array element wellFormed ih =>
      rw [classify_arrayRaw_of_isType wellFormed]
      exact .array (ih (distinctNames_arrayRaw_iff.mp h))
  | malformed raw noType =>
      obtain ⟨defect, hraw⟩ := classify_of_not_isType noType
      rw [hraw]
      exact .malformed h hraw

theorem Built.genuine {d : Descriptor} (h : d.Built) : d.Genuine := by
  induction h with
  | scalar tag => exact .scalar tag
  | array built ih => exact .array ih
  | noFields => exact .map List.nodup_nil (by simp)
  | field name built type ih ihtype => exact genuine_put name ih ihtype
  | map types ih => exact genuine_foldl_put (.map List.nodup_nil (by simp)) ih
  | classified names => exact genuine_classify names

/-! ## What is read back -/

theorem collapseFields_eq_map (fields : List (String × Descriptor)) :
    collapseFields fields = fields.map fun f => (f.1, f.2.collapse) := by
  induction fields with
  | nil => rfl
  | cons f fields ih => rw [collapseFields, ih, List.map_cons]

theorem get?_collapseFields (fields : Schema) (name : String) :
    Members.get? (collapseFields fields) name = (fields.get? name).map collapse := by
  rw [collapseFields_eq_map, Members.get?_map]

theorem isWellFormed_collapse (d : Descriptor) :
    d.collapse.isWellFormed = d.innermost.isWellFormed := by
  cases d with
  | array element =>
      rw [collapse, innermost]
      split
      · rename_i h
        rw [h]
        rfl
      · rename_i h
        rw [Bool.not_eq_true] at h
        rw [h]
        rfl
  | _ => rfl

theorem classify_toJson {d : Descriptor} (h : d.Genuine) : classify d.toJson = d.collapse := by
  induction h with
  | scalar tag => exact classify_scalarRaw tag
  | map names types ih =>
      rw [toJson_map, classify_mapRaw_object, collapse, collapseFields_eq_map, List.map_map]
      congr 1
      exact List.map_congr_left fun f hf => Prod.ext rfl (ih f hf)
  | @array element genuine ih =>
      have hraw : (Descriptor.array element).toJson = arrayRaw element.toJson := rfl
      rw [hraw, classify_arrayRaw, ih, arrayOf, isWellFormed_collapse, collapse, hraw]
  | malformed names kept => exact kept

theorem ofJson_toJson {schema : Schema} (h : (Descriptor.map schema).Genuine) :
    Schema.ofJson schema.toJson = .ok (collapseFields schema) := by
  have hmap := classify_toJson h
  rw [toJson_map, classify_mapRaw_object, collapse, Descriptor.map.injEq] at hmap
  rw [Schema.toJson, Schema.ofJson, classifyFields_eq_map, fieldsJson_eq_map, hmap]

theorem ofJson_toJson_of_ofJson {j : Json} {schema : Schema} (h : Schema.ofJson j = .ok schema) :
    Schema.ofJson schema.toJson = .ok schema := by
  obtain ⟨fields, rfl, rfl⟩ := Schema.ofJson_eq_ok_iff.mp h
  have hmap := classify_toJson_classify (mapRaw (.object fields))
  rw [classify_mapRaw_object, toJson_map, classify_mapRaw_object, Descriptor.map.injEq] at hmap
  rw [Schema.toJson, Schema.ofJson, fieldsJson_eq_map, classifyFields_eq_map,
    classifyFields_eq_map, hmap]

theorem distinctNames_toJson {d : Descriptor} (h : d.Genuine) : d.toJson.DistinctNames := by
  induction h with
  | scalar tag => exact .scalar trivial
  | @map fields names types ih =>
      rw [toJson_map, distinctNames_mapRaw_iff]
      refine ⟨(Members.names_map toJson fields).symm ▸ names, fun f hf => ?_⟩
      obtain ⟨g, hg, rfl⟩ := List.mem_map.mp hf
      exact ih g hg
  | array genuine ih => exact distinctNames_arrayRaw_iff.mpr ih
  | malformed names kept => exact names

theorem genuine_collapse {d : Descriptor} (h : d.Genuine) : d.collapse.Genuine := by
  rw [← classify_toJson h]
  exact genuine_classify (distinctNames_toJson h)

/-! ## What stays as it was -/

theorem ChainsWellFormed.field {fields : Schema} {f : String × Descriptor}
    (h : (Descriptor.map fields).ChainsWellFormed) (hf : f ∈ fields) : f.2.ChainsWellFormed :=
  fun place element hstands => h (.field f.1 :: place) element (.field hf hstands)

theorem ChainsWellFormed.element {d : Descriptor} (h : (Descriptor.array d).ChainsWellFormed) :
    d.ChainsWellFormed :=
  fun place element hstands => h (.element :: place) element (.element hstands)

theorem collapse_of_chainsWellFormed {d : Descriptor} (hd : d.Genuine)
    (h : d.ChainsWellFormed) : d.collapse = d := by
  induction hd with
  | @map fields names types ih =>
      rw [collapse, collapseFields_eq_map, Descriptor.map.injEq, map_eq_self_iff]
      exact fun f hf => Prod.ext rfl (ih f hf (h.field hf))
  | array genuine ih => rw [collapse, if_pos (h [] _ .here), ih h.element]
  | scalar tag => rfl
  | malformed names kept => rfl

theorem Genuine.equal_self {d : Descriptor} (h : d.Genuine) : d.equal d = true := by
  induction h with
  | scalar tag => simp [equal]
  | map names types ih =>
      exact equal_map_iff.mpr ⟨rfl, fun f hf => ⟨f.2, Members.get?_of_mem names hf, ih f hf⟩⟩
  | array genuine ih =>
      rw [equal]
      exact ih
  | malformed names kept => simp [equal, Json.equal_self names]

theorem chainsWellFormed_of_equal {d : Descriptor} (hd : d.Genuine)
    (h : d.collapse.equal d = true) : d.ChainsWellFormed := by
  induction hd with
  | scalar tag => rintro place element ⟨⟩
  | @map fields names types ih =>
      rw [collapse, equal_map_iff, collapseFields_eq_map, List.forall_mem_map] at h
      rintro place element hstands
      cases hstands with
      | @field _ name d place declared below =>
          obtain ⟨e, he, hequal⟩ := h.2 (name, d) declared
          rw [Members.get?_of_mem names declared, Option.some.injEq] at he
          exact ih (name, d) declared (he ▸ hequal) place element below
  | @array d genuine ih =>
      rw [collapse] at h
      split at h
      · rename_i hinner
        rw [equal] at h
        rintro place element hstands
        cases hstands with
        | here => exact hinner
        | element below => exact ih h _ element below
      · rw [equal] at h
        · cases h
        all_goals simp
  | malformed names kept => rintro place element ⟨⟩

theorem isNormalForm_of_collapse {d : Descriptor} (hd : d.Genuine) :
    ∀ {v w : Value}, IsNormalForm d.collapse v w → IsNormalForm d v w := by
  induction hd with
  | scalar tag => exact id
  | @map fields names types ih =>
      intro v w h
      rw [collapse, isNormalForm_map] at h
      obtain ⟨hshape, entries, hentries, rfl⟩ := h
      refine isNormalForm_map.mpr ⟨hshape, entries, hentries.imp ?_, rfl⟩
      rintro e f ⟨hname, d', hd', hform⟩
      rw [get?_collapseFields, Option.map_eq_some_iff] at hd'
      obtain ⟨d, hd, rfl⟩ := hd'
      exact ⟨hname, d, hd, ih (e.1, d) (Members.mem_of_get? hd) hform⟩
  | array genuine ih =>
      intro v w h
      rw [collapse] at h
      split at h
      · obtain ⟨hshape, items, hitems, rfl⟩ := isNormalForm_array.mp h
        exact isNormalForm_array.mpr ⟨hshape, items, hitems.imp fun _ _ => ih, rfl⟩
      · exact absurd h not_isNormalForm_malformed
  | malformed names kept => exact id

end Descriptor

open Descriptor

theorem normalizeDocument_of_collapse {schema : Schema} (hs : (Descriptor.map schema).Genuine)
    {v w : Value} (h : normalizeDocument v (collapseFields schema) = .ok w) :
    normalizeDocument v schema = .ok w := by
  obtain ⟨hcontainer, fields, hfields, rfl⟩ := normalizeDocument_eq_ok.mp h
  refine normalizeDocument_eq_ok.mpr ⟨hcontainer, fields, hfields.imp ?_, rfl⟩
  rintro e f ⟨hname, d', hd', hform⟩
  rw [get?_collapseFields, Option.map_eq_some_iff] at hd'
  obtain ⟨d, hd, rfl⟩ := hd'
  cases hs with
  | map names types =>
      exact ⟨hname, d, hd, isNormalForm_of_collapse (types _ (Members.mem_of_get? hd)) hform⟩

/-- A built schema can always be written out and read back.  What is read has each chain of
arrays that ends in a malformed type as one malformed array that keeps the raw form of the
chain, and nothing else is changed: the two are equal exactly if no chain ends so.  Reading it
back once more changes nothing, and a document with a normal form under what was read has the
same one under the schema. -/
theorem reload_of_built {schema : Schema} (h : (Descriptor.map schema).Built) :
    let t : Schema := collapseFields schema
    Schema.ofJson schema.toJson = .ok t ∧
      ((Descriptor.map t).equal (.map schema) = true ↔
        (Descriptor.map schema).ChainsWellFormed) ∧
      Schema.ofJson t.toJson = .ok t ∧ (Descriptor.map t).equal (.map t) = true ∧
      ∀ v w, normalizeDocument v t = .ok w → normalizeDocument v schema = .ok w := by
  intro t
  have hschema := h.genuine
  have hread : Schema.ofJson schema.toJson = .ok t := ofJson_toJson hschema
  refine ⟨hread, ⟨chainsWellFormed_of_equal hschema, fun hchains => ?_⟩,
    ofJson_toJson_of_ofJson hread, (genuine_collapse hschema).equal_self,
    fun v w => normalizeDocument_of_collapse hschema⟩
  have hsame : Descriptor.map t = .map schema := collapse_of_chainsWellFormed hschema hchains
  rw [hsame]
  exact hschema.equal_self

theorem reload_of_built_nested_chain :
    let chain : Descriptor := .array (.array (classify (.string "int")))
    let schema : Schema := [("rows", chain), ("ids", .array (.scalar .int))]
    let t : Schema := [("rows", .malformed .array chain.toJson), ("ids", .array (.scalar .int))]
    let ids : Value := .mapping [("ids", .sequence [.string "1e1"])]
    let rows : Value := .mapping [("rows", .sequence [])]
    (Descriptor.map schema).Built ∧ Schema.ofJson schema.toJson = .ok t ∧
      (Descriptor.map t).equal (.map schema) = false ∧ Schema.ofJson t.toJson = .ok t ∧
      normalizeDocument ids schema = .ok (.mapping [("ids", .sequence [.integer 10])]) ∧
      normalizeDocument rows schema = .ok rows ∧
      normalizeDocument rows t = .error ⟨⟨["rows"]⟩, .malformedDescriptor⟩ := by
  intro chain schema t ids rows
  have hchain : chain.Built := .array (.array (.classified (.scalar trivial)))
  have hbuilt : (Descriptor.map schema).Built := by
    have hmap : (Descriptor.map (Members.ofPairs schema)).Built := by
      refine .map fun p hp => ?_
      rcases List.mem_pair.mp hp with rfl | rfl
      · exact hchain
      · exact .array (.scalar .int)
    simpa [schema, Members.ofPairs, Members.put] using hmap
  obtain ⟨hread, hequal, hagain, -, hdocuments⟩ := reload_of_built hbuilt
  refine ⟨hbuilt, hread, ?_, hagain, hdocuments ids _ ?_, ?_, ?_⟩
  · rw [← Bool.not_eq_true]
    refine fun h => ?_
    have hinner := hequal.mp h [.field "rows"] _ (.field (List.mem_cons_self ..) .here)
    cases hinner
  · decide +kernel
  · decide +kernel
  · decide +kernel

end SchemaSieve
