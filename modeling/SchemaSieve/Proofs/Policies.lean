import SchemaSieve.Proofs.Acceptance
import SchemaSieve.Proofs.Containers
import SchemaSieve.Proofs.DecidableEquality
import SchemaSieve.Sanitizer

/-!
# Runs under different options

What a run of the sanitizer gives, by the depth of the document and by whether it
fits; a document that fits always has a normal form, so no run ends without one.
Where elements are placed does not touch the codes of the issues, and reporting
instead of rejecting warnings turns refusals into results but changes no result.
-/

namespace SchemaSieve

open Value Validation Normalization

/-! ## Codes do not depend on places -/

namespace Validation

theorem codes_validate (m n : ElementPaths) (v : Value) (schema : Schema) :
    (validate m v schema).map Issue.code = (validate n v schema).map Issue.code :=
  codes_validate_of_sameContents m n (SameContents.refl v)

end Validation

/-! ## Outcomes of a run -/

section

variable {o o₁ o₂ : Options} {v : Value} {schema : Schema}

theorem sanitizeValue_of_deep (hdeep : o.maxDepth.toNat < v.depth) :
    sanitizeValue o v schema = .error (.tooDeep v.depth o.maxDepth) := by
  simp [sanitizeValue, hdeep]

theorem sanitizeValue_of_not_fits (hdepth : v.depth ≤ o.maxDepth.toNat)
    (hfits : ¬ FitsDocument schema v) :
    sanitizeValue o v schema =
      .error (.rejected (.ofIssues (validate o.elementPaths v schema))) := by
  rw [← noErrors_validate o.elementPaths, noErrors_iff_any, Bool.not_eq_false] at hfits
  simp [sanitizeValue, Nat.not_lt.mpr hdepth, hfits]

theorem sanitizeValue_of_normal {w : Value} (hdepth : v.depth ≤ o.maxDepth.toNat)
    (hnormal : normalizeDocument v schema = .ok w) :
    sanitizeValue o v schema =
      if validate o.elementPaths v schema ≠ [] ∧ o.warnings = .reject then
        .error (.rejected (.ofIssues (validate o.elementPaths v schema)))
      else .ok ⟨w, validate o.elementPaths v schema⟩ := by
  have hfits : FitsDocument schema v := exists_normalizeDocument_iff.mp ⟨w, hnormal⟩
  have hany := noErrors_iff_any.mp ((noErrors_validate o.elementPaths).mpr hfits)
  simp [sanitizeValue, Nat.not_lt.mpr hdepth, hany, hnormal]

theorem depth_or_fits (o : Options) (v : Value) (schema : Schema) :
    o.maxDepth.toNat < v.depth ∨
      v.depth ≤ o.maxDepth.toNat ∧
        (¬ FitsDocument schema v ∨ ∃ w, normalizeDocument v schema = .ok w) := by
  rcases Nat.lt_or_ge o.maxDepth.toNat v.depth with hdeep | hdepth
  · exact .inl hdeep
  · rw [exists_normalizeDocument_iff]
    exact .inr ⟨hdepth, (em (FitsDocument schema v)).symm⟩

theorem sanitizeValue_ne_noNormalForm (violation : Violation) :
    sanitizeValue o v schema ≠ .error (.noNormalForm violation) := by
  rcases depth_or_fits o v schema with hdeep | ⟨hdepth, hfits | ⟨w, hnormal⟩⟩
  · simp [sanitizeValue_of_deep hdeep]
  · simp [sanitizeValue_of_not_fits hdepth hfits]
  · rw [sanitizeValue_of_normal hdepth hnormal]
    split <;> simp

theorem sanitizeValue_eq_tooDeep_iff {depth : Nat} {limit : UInt64} :
    sanitizeValue o v schema = .error (.tooDeep depth limit) ↔
      o.maxDepth.toNat < v.depth ∧ depth = v.depth ∧ limit = o.maxDepth := by
  rcases depth_or_fits o v schema with hdeep | ⟨hdepth, hfits | ⟨w, hnormal⟩⟩
  · simp [sanitizeValue_of_deep hdeep, hdeep, eq_comm]
  · simp [sanitizeValue_of_not_fits hdepth hfits, Nat.not_lt.mpr hdepth]
  · rw [sanitizeValue_of_normal hdepth hnormal]
    split <;> simp [Nat.not_lt.mpr hdepth]

theorem eq_ofIssues_of_rejected {f : Failure}
    (h : sanitizeValue o v schema = .error (.rejected f)) :
    f = .ofIssues (validate o.elementPaths v schema) := by
  rcases depth_or_fits o v schema with hdeep | ⟨hdepth, hfits | ⟨w, hnormal⟩⟩
  · simp [sanitizeValue_of_deep hdeep] at h
  · simpa [sanitizeValue_of_not_fits hdepth hfits, eq_comm] using h
  · rw [sanitizeValue_of_normal hdepth hnormal] at h
    split at h
    · simpa [eq_comm] using h
    · simp at h

theorem sanitizeValue_eq_ok_iff {r : Sanitized} :
    sanitizeValue o v schema = .ok r ↔
      v.depth ≤ o.maxDepth.toNat ∧ normalizeDocument v schema = .ok r.value ∧
        r.warnings = validate o.elementPaths v schema ∧
        (o.warnings = .reject → r.warnings = []) := by
  rcases depth_or_fits o v schema with hdeep | ⟨hdepth, hfits | ⟨w, hnormal⟩⟩
  · simp [sanitizeValue_of_deep hdeep, Nat.not_le.mpr hdeep]
  · rw [sanitizeValue_of_not_fits hdepth hfits, ← exists_normalizeDocument_iff] at *
    simp only [reduceCtorEq, false_iff]
    exact fun h => hfits ⟨r.value, h.2.1⟩
  · rw [sanitizeValue_of_normal hdepth hnormal, hnormal]
    by_cases hrefused : validate o.elementPaths v schema ≠ [] ∧ o.warnings = .reject
    · rw [if_pos hrefused]
      simp only [reduceCtorEq, false_iff]
      rintro ⟨-, -, hwarnings, hempty⟩
      exact hrefused.1 (hwarnings ▸ hempty hrefused.2)
    · rw [if_neg hrefused]
      constructor
      · rintro ⟨⟩
        exact ⟨hdepth, rfl, rfl, fun hreject => by_contra fun h => hrefused ⟨h, hreject⟩⟩
      · rintro ⟨-, hvalue, hwarnings, -⟩
        cases hvalue
        rw [← hwarnings]

theorem sanitize_eq_ok_iff {text : String} {r : Sanitized} :
    sanitize o text schema = .ok r ↔
      ∃ v, Value.decode text = .ok v ∧ sanitizeValue o v schema = .ok r := by
  unfold sanitize
  cases Value.decode text with
  | ok v => simp [bind, Except.bind]
  | error refusal => simp [bind, Except.bind]

/-! ## Runs compared -/

/-- Outcomes that differ at most in where their issues are placed. -/
def SameButForPlaces : Except Refusal Sanitized → Except Refusal Sanitized → Prop
  | .ok r, .ok s =>
      r.value = s.value ∧ r.warnings.map Issue.code = s.warnings.map Issue.code
  | .error (.rejected f), .error (.rejected g) =>
      f.warnings.map Issue.code = g.warnings.map Issue.code ∧
        f.errors.map Issue.code = g.errors.map Issue.code
  | _, _ => False

theorem codes_ofIssues (issues : List Issue) :
    (Failure.ofIssues issues).warnings.map Issue.code =
        (issues.map Issue.code).filter (fun c => !decide (c.severity = .error)) ∧
      (Failure.ofIssues issues).errors.map Issue.code =
        (issues.map Issue.code).filter (·.severity = .error) := by
  simp only [List.filter_map]
  exact ⟨rfl, rfl⟩

theorem validate_eq_nil_iff (m n : ElementPaths) :
    validate m v schema = [] ↔ validate n v schema = [] := by
  rw [← List.map_eq_nil_iff (f := Issue.code), codes_validate m n, List.map_eq_nil_iff]

theorem sameButForPlaces_of_warnings_eq (hdepth₁ : v.depth ≤ o₁.maxDepth.toNat)
    (hdepth₂ : v.depth ≤ o₂.maxDepth.toNat) (hpolicy : o₁.warnings = o₂.warnings) :
    SameButForPlaces (sanitizeValue o₁ v schema) (sanitizeValue o₂ v schema) := by
  have hcodes := codes_validate o₁.elementPaths o₂.elementPaths v schema
  have hrejected : SameButForPlaces
      (.error (.rejected (.ofIssues (validate o₁.elementPaths v schema))))
      (.error (.rejected (.ofIssues (validate o₂.elementPaths v schema)))) := by
    simp only [SameButForPlaces, codes_ofIssues, hcodes, and_self]
  rcases depth_or_fits o₁ v schema with hdeep | ⟨-, hfits | ⟨w, hnormal⟩⟩
  · omega
  · rw [sanitizeValue_of_not_fits hdepth₁ hfits, sanitizeValue_of_not_fits hdepth₂ hfits]
    exact hrejected
  · rw [sanitizeValue_of_normal hdepth₁ hnormal, sanitizeValue_of_normal hdepth₂ hnormal]
    simp only [hpolicy, ne_eq, validate_eq_nil_iff o₁.elementPaths o₂.elementPaths]
    split
    · exact hrejected
    · exact ⟨rfl, hcodes⟩

theorem ok_of_reject_iff (hdepth₁ : v.depth ≤ o₁.maxDepth.toNat)
    (hdepth₂ : v.depth ≤ o₂.maxDepth.toNat) (hreject : o₁.warnings = .reject)
    (hreport : o₂.warnings = .report) (r : Sanitized) :
    sanitizeValue o₁ v schema = .ok r ↔
      sanitizeValue o₂ v schema = .ok r ∧ r.warnings = [] := by
  simp only [sanitizeValue_eq_ok_iff, hdepth₁, hdepth₂, hreject, hreport, true_and]
  have hempty : validate o₁.elementPaths v schema = [] ↔
      validate o₂.elementPaths v schema = [] :=
    validate_eq_nil_iff o₁.elementPaths o₂.elementPaths
  constructor
  · rintro ⟨hvalue, hwarnings, hnone⟩
    have hnil := hnone trivial
    exact ⟨⟨hvalue, by rw [hnil, hempty.mp (hwarnings ▸ hnil)], nofun⟩, hnil⟩
  · rintro ⟨⟨hvalue, hwarnings, -⟩, hnil⟩
    exact ⟨hvalue, by rw [hnil, hempty.mpr (hwarnings ▸ hnil)], fun _ => hnil⟩

theorem exists_error_iff_of_report (hdepth : v.depth ≤ o.maxDepth.toNat)
    (hreport : o.warnings = .report) :
    (∃ e, sanitizeValue o v schema = .error e) ↔
      ∃ i ∈ validate o.elementPaths v schema, i.severity = .error := by
  have herrors : ¬ FitsDocument schema v ↔
      ∃ i ∈ validate o.elementPaths v schema, i.severity = .error := by
    rw [← noErrors_validate o.elementPaths]
    simp [NoErrors, Issue.isError]
  rw [← herrors]
  rcases depth_or_fits o v schema with hdeep | ⟨-, hfits | ⟨w, hnormal⟩⟩
  · omega
  · simp [sanitizeValue_of_not_fits hdepth hfits, hfits]
  · simp [sanitizeValue_of_normal hdepth hnormal, hreport,
      exists_normalizeDocument_iff.mp ⟨w, hnormal⟩]

theorem rejected_carries_issues {f : Failure}
    (h : sanitizeValue o v schema = .error (.rejected f)) :
    f.issues.Perm (validate o.elementPaths v schema) ∧
      f.warnings = (validate o.elementPaths v schema).filter (·.severity = .warning) ∧
      f.errors = (validate o.elementPaths v schema).filter (·.severity = .error) := by
  rw [eq_ofIssues_of_rejected h]
  refine ⟨?_, ?_, rfl⟩
  · exact List.perm_append_comm.trans (List.filter_append_perm _ _)
  · refine List.filter_congr fun i _ => ?_
    rw [Issue.isError]
    cases i.severity <;> rfl

end

/-- What the options of a run decide, and what they cannot touch: a run never ends
without a normal form; only depth makes it refuse a document unseen; placing
elements changes no outcome but for places; warnings are rejected or reported, and
nothing else changes with them; a failure holds the issues found, in order. -/
theorem sanitizeValue_under_options (v : Value) (schema : Schema) :
    (∀ o violation, sanitizeValue o v schema ≠ .error (.noNormalForm violation)) ∧
    (∀ o depth limit, sanitizeValue o v schema = .error (.tooDeep depth limit) ↔
      o.maxDepth.toNat < v.depth ∧ depth = v.depth ∧ limit = o.maxDepth) ∧
    (∀ o₁ o₂ : Options, v.depth ≤ o₁.maxDepth.toNat → v.depth ≤ o₂.maxDepth.toNat →
      (validate o₁.elementPaths v schema).map Issue.code =
          (validate o₂.elementPaths v schema).map Issue.code ∧
        (o₁.warnings = o₂.warnings →
          SameButForPlaces (sanitizeValue o₁ v schema) (sanitizeValue o₂ v schema)) ∧
        (o₁.warnings = .reject → o₂.warnings = .report →
          (∀ r, sanitizeValue o₁ v schema = .ok r ↔
            sanitizeValue o₂ v schema = .ok r ∧ r.warnings = []) ∧
          ((∃ e, sanitizeValue o₂ v schema = .error e) ↔
            ∃ i ∈ validate o₂.elementPaths v schema, i.severity = .error) ∧
          ((∃ e, sanitizeValue o₂ v schema = .error e) →
            ∃ e, sanitizeValue o₁ v schema = .error e))) ∧
    (∀ o f, sanitizeValue o v schema = .error (.rejected f) →
      f.issues.Perm (validate o.elementPaths v schema) ∧
        f.warnings = (validate o.elementPaths v schema).filter (·.severity = .warning) ∧
        f.errors = (validate o.elementPaths v schema).filter (·.severity = .error) ∧
        ∀ i, f.issues[i]? =
          if i < f.warnings.length then f.warnings[i]?
          else f.errors[i - f.warnings.length]?) := by
  refine ⟨fun o violation => sanitizeValue_ne_noNormalForm violation,
    fun o depth limit => sanitizeValue_eq_tooDeep_iff, ?_, ?_⟩
  · intro o₁ o₂ hdepth₁ hdepth₂
    refine ⟨codes_validate _ _ v schema, sameButForPlaces_of_warnings_eq hdepth₁ hdepth₂, ?_⟩
    intro hreject hreport
    have hok : ∀ r, sanitizeValue o₁ v schema = .ok r ↔
        sanitizeValue o₂ v schema = .ok r ∧ r.warnings = [] :=
      ok_of_reject_iff hdepth₁ hdepth₂ hreject hreport
    refine ⟨hok, exists_error_iff_of_report hdepth₂ hreport, ?_⟩
    rintro ⟨e, he⟩
    cases hrun : sanitizeValue o₁ v schema with
    | error e' => exact ⟨e', rfl⟩
    | ok r => simp [((hok r).mp hrun).1] at he
  · intro o f h
    obtain ⟨hperm, hwarnings, herrors⟩ := rejected_carries_issues h
    exact ⟨hperm, hwarnings, herrors, fun i => List.getElem?_append⟩

theorem sanitizeValue_under_options_missing_field :
    let v : Value := .mapping [("a", .sequence [.string "1e1"])]
    let schema : Schema := [("a", .array (.scalar .int)), ("b", .scalar .float)]
    v.depth ≤ 64 ∧
      sanitizeValue { warnings := .report } v schema =
        .ok ⟨.mapping [("a", .sequence [.integer 10])], [⟨.root, .countMismatch 1 2⟩]⟩ ∧
      ∀ r, sanitizeValue { elementPaths := .indexed } v schema ≠ .ok r := by
  intro v schema
  have hdepth : v.depth ≤ 64 := by
    have h : v.depth = 2 := by decide +kernel
    omega
  have hreport : sanitizeValue { warnings := .report } v schema =
      .ok ⟨.mapping [("a", .sequence [.integer 10])], [⟨.root, .countMismatch 1 2⟩]⟩ := by
    decide +kernel
  refine ⟨hdepth, hreport, fun r hr => ?_⟩
  have hruns := (sanitizeValue_under_options v schema).2.2.1
    { elementPaths := .indexed } { warnings := .report } hdepth hdepth
  obtain ⟨hok, hnil⟩ := ((hruns.2.2 rfl rfl).1 r).mp hr
  rw [hreport] at hok
  cases hok
  cases hnil

end SchemaSieve
