import SchemaSieve.Proofs.Issues

/-!
# Elements with and without their index

Whether elements are placed at their array or by index changes nothing but paths.  The
steps from the root to an issue are the same in both cases: a map is left by the name of
a field, an array by the index of an element.  Placed by index, the path has every step;
placed at the array, it has the names of fields and nothing else.  A number that is the
name of a field is one of these, so only the type says which numbers are indices.
-/

namespace SchemaSieve

/-! ## Steps -/

inductive Step where
  | field (name : String)
  | element (index : Nat)

namespace Step

def segment : Step → String
  | .field name => name
  | .element index => Decimal.natText index

def isField : Step → Bool
  | .field _ => true
  | .element _ => false

end Step

/-- The steps that lead down from a type, as far as it goes: what is below a field that is
not declared has no type. -/
inductive Route : Descriptor → List Step → Prop
  | here (d : Descriptor) : Route d []
  | undeclared {schema : Schema} {name : String} (absent : schema.get? name = none) :
      Route (.map schema) [.field name]
  | field {schema : Schema} {name : String} {d : Descriptor} {steps : List Step}
      (declared : schema.get? name = some d) (below : Route d steps) :
      Route (.map schema) (.field name :: steps)
  | element {d : Descriptor} {steps : List Step} (index : Nat) (below : Route d steps) :
      Route (.array d) (.element index :: steps)

/-! ## Issues but for indices -/

namespace Validation

/-- One problem, found below `p` with elements placed by index and below `q` with elements
placed at their array. -/
def SameButIndices (p q : FieldPath) (d : Descriptor) (i j : Issue) : Prop :=
  j.problem = i.problem ∧ ∃ steps, Route d steps ∧
    i.path.segments = p.segments ++ steps.map Step.segment ∧
    j.path.segments = q.segments ++ (steps.filter Step.isField).map Step.segment

variable {p q : FieldPath} {schema : Schema} {d : Descriptor} {name : String} {i j : Issue}

theorem sameButIndices_here (p q : FieldPath) (d : Descriptor) (problem : Problem) :
    SameButIndices p q d ⟨p, problem⟩ ⟨q, problem⟩ :=
  ⟨rfl, [], .here d, (List.append_nil _).symm, (List.append_nil _).symm⟩

theorem forall₂_here (p q : FieldPath) (d : Descriptor) (problem : Problem) :
    List.Forall₂ (SameButIndices p q d) [⟨p, problem⟩] [⟨q, problem⟩] :=
  .cons (sameButIndices_here p q d problem) .nil

theorem SameButIndices.field (hd : schema.get? name = some d)
    (h : SameButIndices (p.child name) (q.child name) d i j) :
    SameButIndices p q (.map schema) i j := by
  obtain ⟨hproblem, steps, hroute, hi, hj⟩ := h
  refine ⟨hproblem, .field name :: steps, .field hd hroute, ?_, ?_⟩
  · rw [hi, FieldPath.child, List.append_assoc]
    rfl
  · rw [hj, FieldPath.child, List.append_assoc]
    rfl

theorem SameButIndices.element {index : Nat}
    (h : SameButIndices (p.child (Decimal.natText index)) q d i j) :
    SameButIndices p q (.array d) i j := by
  obtain ⟨hproblem, steps, hroute, hi, hj⟩ := h
  refine ⟨hproblem, .element index :: steps, .element index hroute, ?_, hj⟩
  rw [hi, FieldPath.child, List.append_assoc]
  rfl

theorem sameButIndices_undeclared (hd : schema.get? name = none) :
    SameButIndices p q (.map schema) ⟨p.child name, .undeclared⟩
      ⟨q.child name, .undeclared⟩ :=
  ⟨rfl, [.field name], .undeclared hd, rfl, rfl⟩

/-! ## The walks side by side -/

def WalksAlike (v : Value) : Prop :=
  ∀ p q d, List.Forall₂ (SameButIndices p q d) (checkField .indexed p v d)
    (checkField .shared q v d)

theorem forall₂_checkScalar (p q : FieldPath) (d : Descriptor) (v : Value) (tag : ScalarTag)
    (problem : Value → String → Problem) :
    List.Forall₂ (SameButIndices p q d) (checkScalar p v tag problem)
      (checkScalar q v tag problem) := by
  unfold checkScalar
  split
  · exact .nil
  · exact forall₂_here p q d _

theorem forall₂_checkElement {v : Value} (h : WalksAlike v) (p q : FieldPath)
    (d : Descriptor) :
    List.Forall₂ (SameButIndices p q d) (checkElement .indexed p v d)
      (checkElement .shared q v d) := by
  cases d with
  | scalar tag => exact forall₂_checkScalar p q _ v tag .elementMismatch
  | _ => exact h p q _

theorem forall₂_checkElements {xs : List Value} (h : ∀ x ∈ xs, WalksAlike x)
    (p q : FieldPath) (d : Descriptor) (index : Nat) :
    List.Forall₂ (SameButIndices p q (.array d)) (checkElements .indexed p index xs d)
      (checkElements .shared q index xs d) := by
  induction xs generalizing index with
  | nil =>
      rw [checkElements_nil, checkElements_nil]
      exact .nil
  | cons x xs ih =>
      obtain ⟨hx, hxs⟩ := List.forall_mem_cons.mp h
      rw [checkElements_cons, checkElements_cons]
      apply List.rel_append
      · have helement := forall₂_checkElement hx (p.child (Decimal.natText index)) q d
        exact helement.imp fun _ _ hij => hij.element
      · exact ih hxs (index + 1)

theorem forall₂_checkEntry {e : String × Value} (h : WalksAlike e.2) (p q : FieldPath)
    (schema : Schema) :
    List.Forall₂ (SameButIndices p q (.map schema)) (checkEntry .indexed p schema e)
      (checkEntry .shared q schema e) := by
  unfold checkEntry
  cases hd : schema.get? e.1 with
  | none => exact .cons (sameButIndices_undeclared hd) .nil
  | some d => exact (h (p.child e.1) (q.child e.1) d).imp fun _ _ hij => hij.field hd

theorem forall₂_level {v : Value} (h : ∀ e ∈ v.entries, WalksAlike e.2) (p q : FieldPath)
    (schema : Schema) :
    List.Forall₂ (SameButIndices p q (.map schema))
      (checkCount p v schema ++ v.entries.flatMap (checkEntry .indexed p schema))
      (checkCount q v schema ++ v.entries.flatMap (checkEntry .shared q schema)) := by
  apply List.rel_append
  · unfold checkCount
    split
    · exact .nil
    · exact forall₂_here p q _ _
  · apply forall₂_flatMap
    exact fun e he => forall₂_checkEntry (h e he) p q schema

theorem walksAlike (v : Value) : WalksAlike v := by
  induction v using Value.elements_induction with
  | step v ih =>
      intro p q d
      cases d with
      | scalar tag =>
          rw [checkField_scalar, checkField_scalar]
          exact forall₂_checkScalar p q _ v tag .valueMismatch
      | map schema =>
          rw [checkField_map, checkField_map]
          split
          · apply forall₂_level
            exact fun e he => ih e.2 (Value.snd_mem_elements he)
          · exact forall₂_here p q _ _
      | array element =>
          rw [checkField_array, checkField_array]
          split
          · exact forall₂_checkElements ih p q element 0
          · exact forall₂_here p q _ _
      | malformed defect raw =>
          rw [checkField_malformed, checkField_malformed]
          exact forall₂_here p q _ _

theorem forall₂_validate (v : Value) (schema : Schema) :
    List.Forall₂ (SameButIndices .root .root (.map schema)) (validate .indexed v schema)
      (validate .shared v schema) := by
  rw [validate_eq, validate_eq]
  split
  · exact forall₂_level (fun e _ => walksAlike e.2) .root .root schema
  · exact forall₂_here .root .root _ _

end Validation

open Validation

/-- Placed by index or at their array, elements have the same issues, one by one: the same
code and severity, and the same problem with all that it quotes.  The steps of the indexed
path that are fields make up the other path, and an issue is the same in both lists if it
is reached through no array. -/
theorem shared_paths_drop_indices (v : Value) (schema : Schema) :
    List.Forall₂
      (fun i j => j.code = i.code ∧ j.severity = i.severity ∧ j.problem = i.problem ∧
        ∃ steps, Route (.map schema) steps ∧
          i.path.segments = steps.map Step.segment ∧
          j.path.segments = (steps.filter Step.isField).map Step.segment ∧
          ((∀ s ∈ steps, s.isField = true) → j = i))
      (validate .indexed v schema) (validate .shared v schema) := by
  refine (forall₂_validate v schema).imp ?_
  rintro ⟨⟨iSegments⟩, problem⟩ ⟨⟨jSegments⟩, _⟩ ⟨rfl, steps, hroute, hi, hj⟩
  refine ⟨rfl, rfl, rfl, steps, hroute, hi, hj, ?_⟩
  intro hfields
  have hsegments : jSegments = iSegments := by
    rw [List.filter_eq_self.mpr hfields] at hj
    exact hj.trans hi.symm
  rw [hsegments]

end SchemaSieve
