import SchemaSieve.Proofs.DecidableEquality
import SchemaSieve.Proofs.Reordering
import SchemaSieve.Proofs.Resanitizing

/-!
# Documents with members in another order

Normalization and validation walk a level in the order of the document.  Documents that differ
in the order of members therefore have normal forms that differ in it alone, and the same issues
in another order.  The shapes of values below the root must not depend on the order; the root is
a level whatever its shape.
-/

namespace SchemaSieve

open Value Normalization Validation

/-! ## A document and its normal form -/

/-- A tree and one made of it, with the members of every level in the same order. -/
inductive Value.SameOrder : Value → Value → Prop
  | scalar {v w : Value} (leaf : v.isContainer = false) (leaf' : w.isContainer = false) :
      SameOrder v w
  | container {v w : Value} (hv : v.isContainer = true) (hw : w.isContainer = true)
      (names : Members.names v.entries = Members.names w.entries)
      (values : List.Forall₂ SameOrder v.elements w.elements) : SameOrder v w

theorem sameOrder_of_isNormalForm {d : Descriptor} {v w : Value} (h : IsNormalForm d v w) :
    v.SameOrder w := by
  induction h using IsNormalForm.induction with
  | scalar tag v w h hcoerce =>
      exact .scalar (isContainer_of_coerce? hcoerce)
        (isContainer_of_isCanonical (Coercion.isCanonical_of_coerce? hcoerce))
  | map schema v fields h hshape hfields =>
      refine .container (isContainer_of_isMapping hshape) rfl
        (names_of_isNormalForm_map h).symm (forall₂_elements (hfields.imp ?_))
      rintro e f ⟨-, d, -, -, hsame⟩
      exact hsame
  | array element v items h hshape hitems =>
      refine .container (isContainer_of_isSequence hshape) rfl ?_
        (hitems.imp fun x y ⟨_, hsame⟩ => hsame)
      rw [entries_of_isSequence hshape, names_entries_sequence, names_indexed, hitems.length_eq,
        List.range_eq_range']

theorem sameOrder_of_normalizeDocument {v w : Value} {schema : Schema}
    (h : normalizeDocument v schema = .ok w) : v.SameOrder w := by
  obtain ⟨hv, hw, hfields⟩ := fields_of_normalizeDocument h
  refine .container hv hw (names_of_fieldForm hfields).symm (forall₂_elements (hfields.imp ?_))
  rintro e f ⟨-, d, -, hnormal⟩
  exact sameOrder_of_isNormalForm hnormal

/-! ## Normal forms -/

section

variable {v v' w w' : Value} {schema : Schema}

def NormalFollows (d : Descriptor) (v w : Value) : Prop :=
  ∀ v', v.Reordered v' → ∃ w', IsNormalForm d v' w' ∧ w.Reordered w'

def FieldFollows (schema : Schema) (e f : String × Value) : Prop :=
  f.1 = e.1 ∧ ∃ d, schema.get? e.1 = some d ∧ NormalFollows d e.2 f.2

theorem Value.Reordered.of_entries {fields gs fields' : List (String × Value)}
    (hperm : fields.Perm gs) (hentries : List.Forall₂ (EntryRel Reordered) gs fields') :
    Reordered (.mapping fields) (.mapping fields') :=
  .mapping hperm (names_of_entryRel hentries)
    (elements_of_entryRel (v := .mapping gs) (w := .mapping fields') hentries)

theorem exists_fields_in_step {es es' fields : List (String × Value)}
    (hfields : List.Forall₂ (FieldFollows schema) es fields)
    (hentries : List.Forall₂ (EntryRel Reordered) es es') :
    ∃ fields', List.Forall₂ (FieldForm schema) es' fields' ∧
      List.Forall₂ (EntryRel Reordered) fields fields' := by
  refine exists_square hfields hentries ?_
  rintro e f e' ⟨hf, d, hd, hfollows⟩ ⟨hname, hmoved⟩
  obtain ⟨y, hnormal, hy⟩ := hfollows e'.2 hmoved
  exact ⟨(e'.1, y), ⟨rfl, d, hname ▸ hd, hnormal⟩, hf.trans hname, hy⟩

theorem exists_fields_of_perm {es es' fields entries : List (String × Value)}
    (hperm : entries.Perm es)
    (hfields : List.Forall₂ (FieldFollows schema) entries fields)
    (hentries : List.Forall₂ (EntryRel Reordered) es es') :
    ∃ fields', List.Forall₂ (FieldForm schema) es' fields' ∧
      Reordered (.mapping fields) (.mapping fields') := by
  obtain ⟨gs, hgs, hmoved⟩ := List.perm_comp_forall₂ hperm.symm hfields
  obtain ⟨fields', hfields', hstep⟩ := exists_fields_in_step hgs hentries
  exact ⟨fields', hfields', .of_entries hmoved.symm hstep⟩

theorem normalFollows_of_isNormalForm {d : Descriptor} (h : IsNormalForm d v w)
    (hv : v.NoPositions) : NormalFollows d v w := by
  induction h using IsNormalForm.induction with
  | scalar tag v w h hcoerce =>
      intro v' hmoved
      rcases hmoved.scalar_or_entries with ⟨-, rfl⟩ | ⟨hcontainer, -⟩
      · exact ⟨w, h, .refl w⟩
      · rw [isContainer_of_coerce? hcoerce] at hcontainer
        cases hcontainer
  | map schema v fields h hshape hfields =>
      intro v' hmoved
      have hshape' : v'.isMapping = true := (hmoved.shape hv).1 ▸ hshape
      rcases hmoved.scalar_or_entries with ⟨hleaf, -⟩ | ⟨-, -, es, hperm, hentries⟩
      · rw [isContainer_of_isMapping hshape] at hleaf
        cases hleaf
      · have hfollows : List.Forall₂ (FieldFollows schema) v.entries fields := by
          refine forall₂_imp_of_mem ?_ hfields
          rintro e f he ⟨hname, d, hd, -, ih⟩
          exact ⟨hname, d, hd, ih (hv.elements e.2 (snd_mem_elements he))⟩
        obtain ⟨fields', hfields', hreordered⟩ := exists_fields_of_perm hperm hfollows hentries
        exact ⟨.mapping fields', isNormalForm_map.mpr ⟨hshape', fields', hfields', rfl⟩,
          hreordered⟩
  | array element v items h hshape hitems =>
      intro v' hmoved
      obtain ⟨-, hsequence, helements⟩ := hmoved.shape hv
      have hfollows : List.Forall₂ (NormalFollows element) v.elements items :=
        forall₂_imp_of_mem (fun x _ hx ⟨_, ih⟩ => ih (hv.elements x hx)) hitems
      obtain ⟨items', hitems', hstep⟩ :=
        exists_square hfollows (helements hshape) fun x y x' hfollows => hfollows x'
      exact ⟨.sequence items',
        isNormalForm_array.mpr ⟨hsequence ▸ hshape, items', hitems', rfl⟩, .sequence hstep⟩

theorem reordered_rebuild_sequence {xs ys : List Value} {fields fields' : List (String × Value)}
    (hlen : xs.length = ys.length)
    (hentries : List.Forall₂ (EntryRel Reordered) fields fields') :
    (rebuild (.sequence xs) fields).Reordered (rebuild (.sequence ys) fields') := by
  cases xs with
  | nil =>
      obtain rfl := List.length_eq_zero_iff.mp hlen.symm
      exact .of_entries .rfl hentries
  | cons x xs =>
      cases ys with
      | nil => cases hlen
      | cons y ys =>
          exact .sequence
            (elements_of_entryRel (v := .mapping fields) (w := .mapping fields') hentries)

theorem normalizeDocument_of_reordered (hmoved : v.Reordered v')
    (hv : ∀ x ∈ v.elements, x.NoPositions) (h : normalizeDocument v schema = .ok w) :
    ∃ w', normalizeDocument v' schema = .ok w' ∧ w.Reordered w' := by
  obtain ⟨hcontainer, fields, hfields, rfl⟩ := normalizeDocument_eq_ok.mp h
  have hcontainer' : v'.isContainer = true := hmoved.isContainer_eq ▸ hcontainer
  have hfollows : List.Forall₂ (FieldFollows schema) v.entries fields := by
    refine forall₂_imp_of_mem ?_ hfields
    rintro e f he ⟨hname, d, hd, hnormal⟩
    exact ⟨hname, d, hd, normalFollows_of_isNormalForm hnormal (hv e.2 (snd_mem_elements he))⟩
  cases hmoved with
  | scalar leaf => simp [leaf] at hcontainer
  | @sequence xs ys items =>
      obtain ⟨fields', hfields', hstep⟩ :=
        exists_fields_in_step hfollows (forall₂_entries_sequence items)
      exact ⟨_, normalizeDocument_eq_ok.mpr ⟨hcontainer', fields', hfields', rfl⟩,
        reordered_rebuild_sequence items.length_eq hstep⟩
  | mapping moved names values =>
      obtain ⟨fields', hfields', hreordered⟩ :=
        exists_fields_of_perm moved hfollows (forall₂_entryRel names values)
      exact ⟨_, normalizeDocument_eq_ok.mpr ⟨hcontainer', fields', hfields', rfl⟩, hreordered⟩

/-! ## Issues -/

variable {mode : ElementPaths}

def CodesPerm (mode : ElementPaths) (v v' : Value) : Prop :=
  ∀ p d, ((checkField mode p v d).map Issue.code).Perm ((checkField mode p v' d).map Issue.code)

theorem codesPerm_checkEntry {e e' : String × Value} (h : EntryRel (CodesPerm mode) e e')
    (p : FieldPath) :
    ((checkEntry mode p schema e).map Issue.code).Perm
      ((checkEntry mode p schema e').map Issue.code) := by
  obtain ⟨hname, hcodes⟩ := h
  rw [checkEntry, checkEntry, ← hname]
  cases schema.get? e.1 with
  | none => exact .rfl
  | some d => exact hcodes (p.child e.1) d

theorem codesPerm_level {es : List (String × Value)} (p : FieldPath)
    (hperm : v.entries.Perm es)
    (hentries : List.Forall₂ (EntryRel (CodesPerm mode)) es v'.entries) :
    ((checkCount p v schema ++ v.entries.flatMap (checkEntry mode p schema)).map
        Issue.code).Perm
      ((checkCount p v' schema ++ v'.entries.flatMap (checkEntry mode p schema)).map
        Issue.code) := by
  have hcount : (checkCount p v schema).map Issue.code = (checkCount p v' schema).map Issue.code :=
    codes_checkCount p p (hperm.length_eq.trans hentries.length_eq)
  rw [List.map_append, List.map_append, hcount, List.map_flatMap, List.map_flatMap]
  refine .append_left _ ((hperm.flatMap_right _).trans ?_)
  exact perm_flatMap_of_forall₂ hentries fun e e' he => codesPerm_checkEntry he p

theorem accepts_eq_of_reordered (h : v.Reordered v') (tag : ScalarTag) :
    Coercion.accepts tag v = Coercion.accepts tag v' := by
  rcases h.scalar_or_entries with ⟨-, rfl⟩ | ⟨hv, hv', -⟩
  · rfl
  · rw [Coercion.accepts, Coercion.accepts, coerce?_of_container hv, coerce?_of_container hv']

theorem codesPerm_checkElements {xs ys : List Value} {d : Descriptor}
    (h : List.Forall₂ (fun x y => x.Reordered y ∧ CodesPerm mode x y) xs ys) (p : FieldPath)
    (index : Nat) :
    ((checkElements mode p index xs d).map Issue.code).Perm
      ((checkElements mode p index ys d).map Issue.code) := by
  induction h generalizing index with
  | nil => exact .rfl
  | @cons x y xs ys hxy _ ih =>
      obtain ⟨hmoved, hcodes⟩ := hxy
      rw [checkElements_cons, checkElements_cons, List.map_append, List.map_append]
      refine .append ?_ (ih (index + 1))
      cases d with
      | scalar tag =>
          exact .of_eq (codes_checkScalar _ _ (accepts_eq_of_reordered hmoved tag) rfl)
      | _ => exact hcodes _ _

theorem codesPerm_of_reordered (h : v.Reordered v') (hv : v.NoPositions) :
    CodesPerm mode v v' := by
  induction v using elements_induction generalizing v' with
  | step v ih =>
      intro p d
      obtain ⟨hmapping, hsequence, helements⟩ := h.shape hv
      cases d with
      | scalar tag =>
          rw [checkField_scalar, checkField_scalar]
          exact .of_eq (codes_checkScalar p p (accepts_eq_of_reordered h tag) rfl)
      | map schema =>
          rw [checkField_map, checkField_map, ← hmapping]
          split
          next hshape =>
            rcases h.scalar_or_entries with ⟨-, rfl⟩ | ⟨-, -, es, hperm, hentries⟩
            · exact .rfl
            · refine codesPerm_level p hperm (forall₂_imp_of_mem ?_ hentries)
              rintro e e' he ⟨hname, hmoved⟩
              have hmem : e.2 ∈ v.elements := snd_mem_elements (hperm.mem_iff.mpr he)
              exact ⟨hname, ih e.2 hmem hmoved (hv.elements e.2 hmem)⟩
          next => exact .rfl
      | array element =>
          rw [checkField_array, checkField_array, ← hsequence]
          split
          next hshape =>
            refine codesPerm_checkElements (forall₂_imp_of_mem ?_ (helements hshape)) p 0
            exact fun x y hx hxy => ⟨hxy, ih x hx hxy (hv.elements x hx)⟩
          next => exact .rfl
      | malformed defect raw =>
          rw [checkField_malformed, checkField_malformed]

theorem codes_validate_of_reordered (mode : ElementPaths) (schema : Schema)
    (h : v.Reordered v') (hv : ∀ x ∈ v.elements, x.NoPositions) :
    ((validate mode v schema).map Issue.code).Perm
      ((validate mode v' schema).map Issue.code) := by
  rw [validate_eq, validate_eq]
  rcases h.scalar_or_entries with ⟨hleaf, rfl⟩ | ⟨hcontainer, hcontainer', es, hperm, hentries⟩
  · exact .rfl
  · rw [if_pos hcontainer, if_pos hcontainer']
    refine codesPerm_level .root hperm (forall₂_imp_of_mem ?_ hentries)
    rintro e e' he ⟨hname, hmoved⟩
    exact ⟨hname, codesPerm_of_reordered hmoved
      (hv e.2 (snd_mem_elements (hperm.mem_iff.mpr he)))⟩

theorem noErrors_iff_codes {issues : List Issue} :
    NoErrors issues ↔ ∀ c ∈ issues.map Issue.code, c.severity ≠ .error := by
  simp only [NoErrors, Issue.isError, decide_eq_false_iff_not, List.forall_mem_map]
  rfl

/-! ## Runs -/

theorem exists_sanitized_iff {o : Options} :
    (∃ r, sanitizeValue o v schema = .ok r) ↔
      v.depth ≤ o.maxDepth.toNat ∧ NoErrors (validate o.elementPaths v schema) ∧
        (o.warnings = .reject → validate o.elementPaths v schema = []) := by
  rw [noErrors_validate, ← exists_normalizeDocument_iff]
  constructor
  · rintro ⟨r, hr⟩
    obtain ⟨hdepth, hnormal, hwarnings, hreject⟩ := sanitizeValue_eq_ok_iff.mp hr
    exact ⟨hdepth, ⟨r.value, hnormal⟩, fun h => hwarnings ▸ hreject h⟩
  · rintro ⟨hdepth, ⟨w, hnormal⟩, hreject⟩
    exact ⟨⟨w, _⟩, sanitizeValue_eq_ok_iff.mpr ⟨hdepth, hnormal, rfl, hreject⟩⟩

theorem exists_sanitized_of_reordered (h : v.Reordered v')
    (hv : ∀ x ∈ v.elements, x.NoPositions) (o : Options) :
    (∃ r, sanitizeValue o v schema = .ok r) ↔ ∃ r, sanitizeValue o v' schema = .ok r := by
  have hcodes := codes_validate_of_reordered o.elementPaths schema h hv
  have hnil : validate o.elementPaths v schema = [] ↔ validate o.elementPaths v' schema = [] := by
    have hlen := hcodes.length_eq
    rw [List.length_map, List.length_map] at hlen
    rw [← List.length_eq_zero_iff, hlen, List.length_eq_zero_iff]
  rw [exists_sanitized_iff, exists_sanitized_iff, noErrors_iff_codes, noErrors_iff_codes,
    depth_eq_nesting, depth_eq_nesting, h.nesting_eq, hnil]
  simp only [hcodes.mem_iff]

end

/-- The order of members decides nothing, where no mapping below the root is named by
positions.  Documents that differ in it pass or fail alike, their results are equal, each in the
order of its document, and they have issues of the same codes, each as often. -/
theorem same_outcome_of_reordered {v v' : Value} (hnames : v.DistinctNames)
    (hmoved : v.Reordered v') (hv : ∀ x ∈ v.elements, x.NoPositions) (schema : Schema)
    (o : Options) :
    ((∃ r, sanitizeValue o v schema = .ok r) ↔ ∃ r, sanitizeValue o v' schema = .ok r) ∧
    (∀ r r', sanitizeValue o v schema = .ok r → sanitizeValue o v' schema = .ok r' →
      r.value.equal r'.value = true ∧ v.SameOrder r.value ∧ v'.SameOrder r'.value) ∧
    ∀ mode, ((validate mode v schema).map Issue.code).Perm
      ((validate mode v' schema).map Issue.code) := by
  refine ⟨exists_sanitized_of_reordered hmoved hv o, fun r r' hr hr' => ?_,
    fun mode => codes_validate_of_reordered mode schema hmoved hv⟩
  obtain ⟨-, hnormal, -⟩ := sanitizeValue_eq_ok_iff.mp hr
  obtain ⟨-, hnormal', -⟩ := sanitizeValue_eq_ok_iff.mp hr'
  obtain ⟨w', hw', hreordered⟩ := normalizeDocument_of_reordered hmoved hv hnormal
  rw [hnormal'] at hw'
  cases hw'
  exact ⟨hreordered.equal (distinctNames_of_normalizeDocument hnormal hnames),
    sameOrder_of_normalizeDocument hnormal, sameOrder_of_normalizeDocument hnormal'⟩

theorem same_outcome_of_reordered_three_levels :
    let v : Value := .mapping
      [("0", .mapping [("x", .string "1e1"), ("y", .integer 2)]),
        ("1", .sequence [.mapping [("b", .integer 1), ("a", .string "s")]])]
    let v' : Value := .mapping
      [("1", .sequence [.mapping [("a", .string "s"), ("b", .integer 1)]]),
        ("0", .mapping [("y", .integer 2), ("x", .string "1e1")])]
    let pair : Schema := [("x", .scalar .int), ("y", .scalar .string)]
    let item : Schema := [("a", .scalar .string), ("b", .scalar .int)]
    let schema : Schema := [("0", .map pair), ("1", .array (.map item))]
    v.Reordered v' ∧
      (∃ r r', sanitizeValue {} v schema = .ok r ∧ sanitizeValue {} v' schema = .ok r' ∧
        r.value.equal r'.value = true ∧ v.SameOrder r.value ∧ v'.SameOrder r'.value) ∧
      ((validate .shared v [("0", .map item)]).map Issue.code).Perm
        ((validate .shared v' [("0", .map item)]).map Issue.code) := by
  intro v v' pair item schema
  have hrefl : ∀ {ms : List (String × Value)},
      List.Forall₂ Reordered (ms.map Prod.snd) (ms.map Prod.snd) :=
    List.forall₂_same.mpr fun x _ => .refl x
  have hmoved : v.Reordered v' := by
    refine .mapping (.swap _ _ []) rfl (.cons (.sequence (.cons ?_ .nil)) (.cons ?_ .nil))
    · exact .mapping (.swap _ _ []) rfl hrefl
    · exact .mapping (.swap _ _ []) rfl hrefl
  have hnames : v.DistinctNames := by
    refine .mapping (by decide) fun m hm => ?_
    rcases List.mem_pair.mp hm with rfl | rfl
    · refine .mapping (by decide) fun m hm => ?_
      rcases List.mem_pair.mp hm with rfl | rfl <;> exact .scalar rfl
    · refine .sequence fun x hx => ?_
      rw [List.mem_singleton.mp hx]
      refine .mapping (by decide) fun m hm => ?_
      rcases List.mem_pair.mp hm with rfl | rfl <;> exact .scalar rfl
  have hv : ∀ x ∈ v.elements, x.NoPositions := by
    intro x hx
    rcases List.mem_pair.mp hx with rfl | rfl
    · refine .mapping (not_namedByPositions (by decide)) fun m hm => ?_
      rcases List.mem_pair.mp hm with rfl | rfl <;> exact .scalar rfl
    · refine .sequence fun x hx => ?_
      rw [List.mem_singleton.mp hx]
      refine .mapping (not_namedByPositions (by decide)) fun m hm => ?_
      rcases List.mem_pair.mp hm with rfl | rfl <;> exact .scalar rfl
  obtain ⟨hruns, hresults, -⟩ := same_outcome_of_reordered hnames hmoved hv schema {}
  have hok : ∃ r, sanitizeValue {} v schema = .ok r := by
    refine ⟨⟨.mapping [("0", .mapping [("x", .integer 10), ("y", .string "2")]),
      ("1", .sequence [.mapping [("b", .integer 1), ("a", .string "s")]])], []⟩, ?_⟩
    decide +kernel
  obtain ⟨r, hr⟩ := hok
  obtain ⟨r', hr'⟩ := hruns.mp ⟨r, hr⟩
  exact ⟨hmoved, ⟨r, r', hr, hr', hresults r r' hr hr'⟩,
    (same_outcome_of_reordered hnames hmoved hv [("0", .map item)] {}).2.2 .shared⟩

end SchemaSieve
