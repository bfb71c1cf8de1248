import SchemaSieve.Proofs.DecidableEquality
import SchemaSieve.Proofs.Issues
import SchemaSieve.Proofs.NormalForm

/-!
# The first error

Normalization stops where validation finds its first error.  `stop?` is where a walk of
normalization stopped and what it said, `firstStop?` where it has to stop for the issues
of the same walk.  Issues of one entry after the other are appended, steps of
normalization are bound, and both keep what comes first.
-/

namespace SchemaSieve

open Value Validation Normalization

/-! ## Stops of validation -/

/-- What normalization says of a problem.  It goes on past a wrong number of fields. -/
def Problem.reasonText? (problem : Problem) : Option String :=
  match problem with
  | .countMismatch _ _ => none
  | .undeclared => some "field is not declared"
  | .malformed _ _ => some "malformed descriptor"
  | .valueMismatch _ expected =>
      if expected = "MAP" then some "expected a mapping"
      else if expected = "ARRAY" then some "expected a sequence"
      else some "scalar does not coerce"
  | .elementMismatch _ _ => some "scalar does not coerce"

theorem reasonText?_valueMismatch (v : Value) (tag : ScalarTag) :
    Problem.reasonText? (.valueMismatch v tag.name) = some "scalar does not coerce" := by
  cases tag <;> rfl

namespace Validation

def firstStop? (issues : List Issue) : Option (FieldPath × Option String) :=
  (issues.find? (·.isError)).map fun i => (i.path, i.problem.reasonText?)

theorem firstStop?_append (is js : List Issue) :
    firstStop? (is ++ js) = (firstStop? is).or (firstStop? js) := by
  rw [firstStop?, List.find?_append, Option.map_or]
  rfl

theorem firstStop?_checkCount_append (p : FieldPath) (v : Value) (schema : Schema)
    (issues : List Issue) :
    firstStop? (checkCount p v schema ++ issues) = firstStop? issues := by
  unfold checkCount
  split <;> rfl

end Validation

/-! ## Stops of normalization -/

namespace Normalization

variable {α β γ : Type}

def stop? (r : Except Violation α) : Option (FieldPath × Option String) :=
  match r with
  | .ok _ => none
  | .error c => some (c.path, some c.reason.text)

theorem stop?_map (f : α → β) (r : Except Violation α) : stop? (f <$> r) = stop? r := by
  cases r <;> rfl

theorem stop?_bind (r : Except Violation α) (s : Except Violation β) (f : α → β → γ) :
    stop? (do let a ← r; let b ← s; .ok (f a b)) = (stop? r).or (stop? s) := by
  cases r with
  | error c => rfl
  | ok a => cases s <;> rfl

theorem stop?_eq_some {r : Except Violation α} {p : FieldPath} {text : Option String} :
    stop? r = some (p, text) ↔ ∃ c, r = .error c ∧ c.path = p ∧ some c.reason.text = text := by
  cases r <;> simp [stop?]

/-! ## The walks side by side -/

def StopsForFirst (v : Value) : Prop :=
  ∀ p d, stop? (normalizeField p v d) = firstStop? (checkField .shared p v d)

theorem stop?_scalar {p : FieldPath} {v : Value} {tag : ScalarTag}
    {problem : Value → String → Problem}
    (herror : Issue.isError ⟨p, problem v tag.name⟩ = true)
    (htext : (problem v tag.name).reasonText? = some "scalar does not coerce") :
    stop? (normalizeField p v (.scalar tag)) = firstStop? (checkScalar p v tag problem) := by
  rw [normalizeField, checkScalar, Coercion.accepts]
  cases Coercion.coerce? tag v with
  | some w => rfl
  | none => simp [firstStop?, herror, htext, stop?, Reason.text]

theorem stop?_element {v : Value} (h : StopsForFirst v) (p : FieldPath) (d : Descriptor) :
    stop? (normalizeField p v d) = firstStop? (checkElement .shared p v d) := by
  cases d with
  | scalar tag => exact stop?_scalar rfl rfl
  | _ => exact h p _

theorem stop?_normalizeElements {xs : List Value} (h : ∀ x ∈ xs, StopsForFirst x)
    (p : FieldPath) (d : Descriptor) (index : Nat) :
    stop? (normalizeElements p xs d) = firstStop? (checkElements .shared p index xs d) := by
  induction xs generalizing index with
  | nil =>
      rw [normalizeElements, checkElements_nil]
      rfl
  | cons x xs ih =>
      obtain ⟨hx, hxs⟩ := List.forall_mem_cons.mp h
      rw [normalizeElements, stop?_bind, checkElements_cons, firstStop?_append,
        stop?_element hx, ih hxs (index + 1)]
      rfl

theorem stop?_entry {e : String × Value} (h : StopsForFirst e.2) (p : FieldPath)
    (schema : Schema) :
    stop? (normalizeEntry p schema e) = firstStop? (checkEntry .shared p schema e) := by
  unfold normalizeEntry checkEntry
  cases schema.get? e.1 with
  | none => rfl
  | some d => exact h (p.child e.1) d

theorem stop?_normalizeEntries {entries : List (String × Value)}
    (h : ∀ e ∈ entries, StopsForFirst e.2) (p : FieldPath) (schema : Schema) :
    stop? (normalizeEntries p entries schema) =
      firstStop? (entries.flatMap (checkEntry .shared p schema)) := by
  induction entries with
  | nil =>
      rw [normalizeEntries]
      rfl
  | cons e entries ih =>
      obtain ⟨he, hentries⟩ := List.forall_mem_cons.mp h
      rw [normalizeEntries_cons, stop?_bind, List.flatMap_cons, firstStop?_append,
        stop?_entry he, ih hentries]

theorem stopsForFirst (v : Value) : StopsForFirst v := by
  induction v using elements_induction with
  | step v ih =>
      intro p d
      cases d with
      | scalar tag =>
          rw [checkField_scalar]
          exact stop?_scalar rfl (reasonText?_valueMismatch v tag)
      | map schema =>
          rw [normalizeField, checkField_map]
          split
          · rw [stop?_map, firstStop?_checkCount_append]
            apply stop?_normalizeEntries
            exact fun e he => ih e.2 (snd_mem_elements he)
          · rfl
      | array element =>
          rw [normalizeField, checkField_array]
          split
          · rw [stop?_map]
            exact stop?_normalizeElements ih p element 0
          · rfl
      | malformed defect raw =>
          rw [normalizeField, checkField_malformed]
          simp [firstStop?, isError_malformed, stop?, Reason.text, Problem.reasonText?]

theorem stop?_normalizeDocument (v : Value) (schema : Schema) :
    stop? (normalizeDocument v schema) = firstStop? (validate .shared v schema) := by
  rw [normalizeDocument, validate_eq]
  split
  · rw [stop?_map, firstStop?_checkCount_append]
    exact stop?_normalizeEntries (fun e _ => stopsForFirst e.2) .root schema
  · rfl

end Normalization

/-- If validation finds an error, normalization stops at the first one.  It stops at the
path of that error, with the reason that belongs to its problem. -/
theorem normalization_stops_at_first_error {v : Value} {schema : Schema}
    (h : ∃ i ∈ validate .shared v schema, i.severity = .error) :
    ∃ i c, (validate .shared v schema).find? (·.isError) = some i ∧
      normalizeDocument v schema = .error c ∧ c.path = i.path ∧
      some c.reason.text = i.problem.reasonText? := by
  have hfound : ((validate .shared v schema).find? (·.isError)).isSome = true := by
    simpa [Issue.isError] using h
  obtain ⟨i, hi⟩ := Option.isSome_iff_exists.mp hfound
  have hstop := stop?_normalizeDocument v schema
  rw [firstStop?, hi, Option.map_some, stop?_eq_some] at hstop
  obtain ⟨c, hc, hpath, htext⟩ := hstop
  exact ⟨i, c, hi, hc, hpath, htext⟩

theorem normalization_stops_at_first_error_in_nested_array :
    let v : Value := .mapping [("point", .mapping [("x", .integer 1)]),
      ("rows", .sequence [.sequence [.integer 1, .string "x"], .null]), ("other", .null)]
    let schema : Schema := [("point", .map [("x", .scalar .int), ("y", .scalar .int)]),
      ("rows", .array (.array (.scalar .int)))]
    let issues := validate .shared v schema
    issues.map Issue.severity = [.warning, .warning, .error, .error, .error] ∧
      ∃ i c, issues.find? (·.isError) = some i ∧ normalizeDocument v schema = .error c ∧
        c.path = i.path ∧ some c.reason.text = i.problem.reasonText? := by
  intro v schema issues
  have hseverities : issues.map Issue.severity = [.warning, .warning, .error, .error, .error] := by
    decide +kernel
  have herror : .error ∈ issues.map Issue.severity := by
    rw [hseverities]
    decide
  exact ⟨hseverities, normalization_stops_at_first_error (List.mem_map.mp herror)⟩

end SchemaSieve
