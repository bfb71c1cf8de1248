import SchemaSieve.Coercion.Basic
import SchemaSieve.Issue.Basic
import SchemaSieve.Options.Basic
import SchemaSieve.Value.Shape

/-!
# Validation

A document and a schema are walked together, and every problem on the way is
reported, in document order.  Each level first compares its number of fields
with the number declared; that count is the only trace of absent fields.

The root is walked as a level whatever its container kind.  Elements of an array
either share the path of the array or carry their index.
-/

namespace SchemaSieve.Validation

open Value

def elementPath (mode : ElementPaths) (path : FieldPath) (index : Nat) : FieldPath :=
  match mode with
  | .shared => path
  | .indexed => path.child (Decimal.natText index)

def checkCount (path : FieldPath) (v : Value) (schema : Schema) : List Issue :=
  if v.entries.length = schema.length then []
  else [⟨path, .countMismatch v.entries.length schema.length⟩]

def checkScalar (path : FieldPath) (v : Value) (tag : ScalarTag)
    (problem : Value → String → Problem) : List Issue :=
  if Coercion.accepts tag v then [] else [⟨path, problem v tag.name⟩]

mutual
def checkField (mode : ElementPaths) (path : FieldPath) (v : Value) (d : Descriptor) :
    List Issue :=
  match d with
  | .scalar tag => checkScalar path v tag .valueMismatch
  | .map schema =>
      if v.isMapping then
        checkCount path v schema ++ checkEntries mode path v.entries schema
      else [⟨path, .valueMismatch v "MAP"⟩]
  | .array element =>
      if v.isSequence then checkElements mode path 0 v.elements element
      else [⟨path, .valueMismatch v "ARRAY"⟩]
  | .malformed defect raw => [⟨path, .malformed defect raw⟩]
termination_by 2 * v.size
decreasing_by
  · exact visit_parts (sizeMembers_entries_lt v)
  · exact visit_parts (sizeItems_elements_lt v)

def checkEntries (mode : ElementPaths) (path : FieldPath) (entries : List (String × Value))
    (schema : Schema) : List Issue :=
  match entries with
  | [] => []
  | (name, v) :: entries =>
      (match schema.get? name with
        | some d => checkField mode (path.child name) v d
        | none => [⟨path.child name, .undeclared⟩]) ++
        checkEntries mode path entries schema
termination_by 2 * sizeMembers entries + 1
decreasing_by
  · exact visit_head (Nat.le_add_right _ _)
  · exact visit_tail (Nat.lt_add_of_pos_left v.size_pos)

/-- The issues of the elements of an array, from the one at `index` on.  A
scalar element has a problem of its own; a composite one is checked like a
field. -/
def checkElements (mode : ElementPaths) (path : FieldPath) (index : Nat)
    (elements : List Value) (d : Descriptor) : List Issue :=
  match elements with
  | [] => []
  | v :: elements =>
      let place := elementPath mode path index
      (match d with
        | .scalar tag => checkScalar place v tag .elementMismatch
        | d => checkField mode place v d) ++
        checkElements mode path (index + 1) elements d
termination_by 2 * sizeItems elements + 1
decreasing_by
  · exact visit_head (Nat.le_add_right _ _)
  · exact visit_tail (Nat.lt_add_of_pos_left v.size_pos)
end

def validate (mode : ElementPaths) (v : Value) (schema : Schema) : List Issue :=
  if v.isContainer then
    checkCount .root v schema ++ checkEntries mode .root v.entries schema
  else [⟨.root, .valueMismatch v "MAP"⟩]

end SchemaSieve.Validation
