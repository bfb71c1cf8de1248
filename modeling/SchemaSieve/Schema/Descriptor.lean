import SchemaSieve.Json.Basic
import SchemaSieve.Schema.Tag

/-!
# Type descriptors

A descriptor is a scalar tag, a map of named fields or an array of elements.
Raw descriptors are JSON: a tag number, `[100, fields]` or `[101, element]`.
Classification never fails: a fragment of any other form is kept whole, with
the form it was aiming at, and is reported when a document reaches it.

An array whose element is malformed is malformed itself, whereas the fields of
a map stand on their own.
-/

namespace SchemaSieve

inductive Defect where
  | unknownScalar
  | map
  | array
  | nested
deriving DecidableEq, Repr

inductive Descriptor where
  | scalar (tag : ScalarTag)
  | map (fields : List (String × Descriptor))
  | array (element : Descriptor)
  | malformed (defect : Defect) (raw : Json)

abbrev Schema := Members Descriptor

namespace Descriptor

def isWellFormed : Descriptor → Bool
  | .malformed _ _ => false
  | _ => true

/-! ## Raw form -/

/-- The array of an element, if it is well formed; else the whole fragment is
malformed. -/
def arrayOf (raw : Json) (element : Descriptor) : Descriptor :=
  if element.isWellFormed then .array element else .malformed .array raw

mutual
def classify : Json → Descriptor
  | .array [kind, payload] =>
      if kind.int? = some mapCode then classifyMap (.array [kind, payload]) payload
      else if kind.int? = some arrayCode then
        arrayOf (.array [kind, payload]) (classify payload)
      else .malformed .nested (.array [kind, payload])
  | .array xs => .malformed .nested (.array xs)
  | raw =>
      match raw.int?.bind ScalarTag.ofCode? with
      | some tag => .scalar tag
      | none => .malformed .unknownScalar raw

/-- The payload of a map: an object, or an empty list for no fields. -/
def classifyMap (raw : Json) : Json → Descriptor
  | .object fields => .map (classifyFields fields)
  | .array [] => .map []
  | _ => .malformed .map raw

def classifyFields : List (String × Json) → List (String × Descriptor)
  | [] => []
  | (name, raw) :: fields => (name, classify raw) :: classifyFields fields
end

def tagJson (code : Int) (h : -0x8000000000000000 ≤ code ∧ code < 0x10000000000000000) : Json :=
  .number (.integer code h)

mutual
def toJson : Descriptor → Json
  | .scalar tag => tagJson tag.code (by cases tag <;> decide)
  | .map fields => .array [tagJson mapCode (by decide), .object (fieldsJson fields)]
  | .array element => .array [tagJson arrayCode (by decide), element.toJson]
  | .malformed _ raw => raw

def fieldsJson : List (String × Descriptor) → List (String × Json)
  | [] => []
  | (name, d) :: fields => (name, d.toJson) :: fieldsJson fields
end

/-! ## Equality

Fields are compared without regard to their order, and malformed fragments as
JSON. -/

mutual
def equal : Descriptor → Descriptor → Bool
  | .scalar s, .scalar t => s = t
  | .map fs, .map gs => fs.length == gs.length && equalFields fs gs
  | .array d, .array e => d.equal e
  | .malformed s a, .malformed t b => s = t && a.equal b
  | _, _ => false

def equalFields : List (String × Descriptor) → List (String × Descriptor) → Bool
  | [], _ => true
  | (name, d) :: fs, gs =>
      (match Members.get? gs name with
        | some e => d.equal e
        | none => false) && equalFields fs gs
end

end Descriptor

namespace Schema

def toJson (s : Schema) : Json := .object (Descriptor.fieldsJson s)

end Schema

end SchemaSieve
