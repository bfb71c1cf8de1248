import SchemaSieve.Issue.Basic
import SchemaSieve.Json.Typed

/-!
# Names of issue codes

Codes and severities are written in reports, and read, by their names.
-/

namespace SchemaSieve

namespace Severity

def all : List Severity := [.warning, .error]

def name : Severity → String
  | .warning => "warning"
  | .error => "error"

end Severity

namespace IssueCode

def all : List IssueCode :=
  [.fieldCountMismatch, .fieldTypeNotSet, .unknownScalarType, .malformedNestedType,
    .malformedMapType, .malformedArrayType, .fieldValueMismatch, .arrayElementMismatch]

def name : IssueCode → String
  | .fieldCountMismatch => "field-count-mismatch"
  | .fieldTypeNotSet => "field-type-not-set"
  | .unknownScalarType => "unknown-scalar-type"
  | .malformedNestedType => "malformed-nested-type"
  | .malformedMapType => "malformed-map-type"
  | .malformedArrayType => "malformed-array-type"
  | .fieldValueMismatch => "field-value-mismatch"
  | .arrayElementMismatch => "array-element-mismatch"

/-- The code as a single capitalised word, for reports on test cases. -/
def title : IssueCode → String
  | .fieldCountMismatch => "FieldCountMismatch"
  | .fieldTypeNotSet => "FieldTypeNotSet"
  | .unknownScalarType => "UnknownScalarType"
  | .malformedNestedType => "MalformedNestedType"
  | .malformedMapType => "MalformedMapType"
  | .malformedArrayType => "MalformedArrayType"
  | .fieldValueMismatch => "FieldValueMismatch"
  | .arrayElementMismatch => "ArrayElementMismatch"

end IssueCode

/-! ## Reading -/

open Json Json.Reader

def codeValue (containers : Nat) : Reader IssueCode :=
  namedValue containers (IssueCode.all.map fun c => (c.name, c))

def severityValue (containers : Nat) : Reader Severity :=
  namedValue containers (Severity.all.map fun s => (s.name, s))

def IssueCode.read (source : Bytes) : Except Fault IssueCode :=
  (codeValue containerLimit).run source

def Severity.read (source : Bytes) : Except Fault Severity :=
  (severityValue containerLimit).run source

end SchemaSieve
