import SchemaSieve.Coercion.Basic
import SchemaSieve.Issue.Path
import SchemaSieve.Schema.Descriptor
import SchemaSieve.Value.Shape

/-!
# Normalization

A document is rebuilt in the form that its schema declares: scalars in the
canonical form of their tag, arrays as sequences and maps as mappings, whatever
container they came in.  The walk goes over the same places in the same order as
validation, and stops at the first value without a normal form.  All elements of
an array are placed at the array.
-/

namespace SchemaSieve.Normalization

open Value

inductive Reason where
  | noCoercion
  | noMapping
  | noSequence
  | malformedDescriptor
  | undeclared
deriving DecidableEq, Repr

def Reason.text : Reason → String
  | .noCoercion => "scalar does not coerce"
  | .noMapping => "expected a mapping"
  | .noSequence => "expected a sequence"
  | .malformedDescriptor => "malformed descriptor"
  | .undeclared => "field is not declared"

structure Violation where
  path : FieldPath
  reason : Reason
deriving DecidableEq, Repr

def Violation.message (e : Violation) : String :=
  "normalization reached `" ++ e.path.text ++ "` with a value that did not validate (" ++
    e.reason.text ++ ")"

mutual
def normalizeField (path : FieldPath) (v : Value) (d : Descriptor) :
    Except Violation Value :=
  match d with
  | .scalar tag =>
      match Coercion.coerce? tag v with
      | some w => .ok w
      | none => .error ⟨path, .noCoercion⟩
  | .map schema =>
      if v.isMapping then .mapping <$> normalizeEntries path v.entries schema
      else .error ⟨path, .noMapping⟩
  | .array element =>
      if v.isSequence then .sequence <$> normalizeElements path v.elements element
      else .error ⟨path, .noSequence⟩
  | .malformed _ _ => .error ⟨path, .malformedDescriptor⟩
termination_by 2 * v.size
decreasing_by
  · exact visit_parts (sizeMembers_entries_lt v)
  · exact visit_parts (sizeItems_elements_lt v)

def normalizeEntries (path : FieldPath) (entries : List (String × Value))
    (schema : Schema) : Except Violation (List (String × Value)) :=
  match entries with
  | [] => .ok []
  | (name, v) :: entries => do
      let field :=
        match schema.get? name with
        | some d => normalizeField (path.child name) v d
        | none => .error ⟨path.child name, .undeclared⟩
      let w ← field
      let rest ← normalizeEntries path entries schema
      .ok ((name, w) :: rest)
termination_by 2 * sizeMembers entries + 1
decreasing_by
  · exact visit_head (Nat.le_add_right _ _)
  · exact visit_tail (Nat.lt_add_of_pos_left v.size_pos)

def normalizeElements (path : FieldPath) (elements : List Value) (d : Descriptor) :
    Except Violation (List Value) :=
  match elements with
  | [] => .ok []
  | v :: elements => do
      let w ← normalizeField path v d
      let rest ← normalizeElements path elements d
      .ok (w :: rest)
termination_by 2 * sizeItems elements + 1
decreasing_by
  · exact visit_head (Nat.le_add_right _ _)
  · exact visit_tail (Nat.lt_add_of_pos_left v.size_pos)
end

def normalize (v : Value) (d : Descriptor) : Except Violation Value :=
  normalizeField .root v d

/-- A document in the container it came in; an empty one becomes a mapping. -/
def rebuild (v : Value) (fields : List (String × Value)) : Value :=
  match v with
  | .sequence (_ :: _) => .sequence (fields.map Prod.snd)
  | _ => .mapping fields

def normalizeDocument (v : Value) (schema : Schema) : Except Violation Value :=
  if v.isContainer then rebuild v <$> normalizeEntries .root v.entries schema
  else .error ⟨.root, .noMapping⟩

end SchemaSieve.Normalization
