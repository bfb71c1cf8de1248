import SchemaSieve.Issue.Path
import SchemaSieve.Schema.Descriptor
import SchemaSieve.Schema.Fragment
import SchemaSieve.Value.Text

/-!
# Issues

An issue is a problem at a path.  Its code, its severity and its message follow
from the problem; only a wrong number of fields is a mere warning.
-/

namespace SchemaSieve

inductive Severity where
  | warning
  | error
deriving DecidableEq, Repr

inductive IssueCode where
  | fieldCountMismatch
  | fieldTypeNotSet
  | unknownScalarType
  | malformedNestedType
  | malformedMapType
  | malformedArrayType
  | fieldValueMismatch
  | arrayElementMismatch
deriving DecidableEq, Repr

namespace IssueCode

def severity : IssueCode → Severity
  | .fieldCountMismatch => .warning
  | _ => .error

end IssueCode

inductive Problem where
  /-- A level has another number of fields than its schema declares. -/
  | countMismatch (fields declared : Nat)
  | undeclared
  | malformed (defect : Defect) (raw : Json)
  | valueMismatch (value : Value) (expected : String)
  | elementMismatch (element : Value) (expected : String)

structure Issue where
  path : FieldPath
  problem : Problem

namespace Problem

def code : Problem → IssueCode
  | .countMismatch _ _ => .fieldCountMismatch
  | .undeclared => .fieldTypeNotSet
  | .malformed .unknownScalar _ => .unknownScalarType
  | .malformed .nested _ => .malformedNestedType
  | .malformed .map _ => .malformedMapType
  | .malformed .array _ => .malformedArrayType
  | .valueMismatch _ _ => .fieldValueMismatch
  | .elementMismatch _ _ => .arrayElementMismatch

end Problem

namespace Issue

def code (i : Issue) : IssueCode := i.problem.code

def severity (i : Issue) : Severity := i.code.severity

def isError (i : Issue) : Bool := i.severity = .error

/-! ## Messages -/

def scalarHint : String := "Use one of INT, FLOAT, STRING, PHONE"

def nestedHint : String :=
  "Nested fields may use [MAP,[...]] or [ARRAY,INT] in place of a scalar type"

def mapExample : String := "[MAP,[\"first\"=>INT,\"second\"=>FLOAT]]"

def arrayExample : String := "[ARRAY,INT]"

def ticked (p : FieldPath) : String := "`" ++ p.text ++ "`"

def levelText (p : FieldPath) : String :=
  if p.isRoot then "at the root" else "for field " ++ ticked p

def placeText (p : FieldPath) : String :=
  if p.isRoot then "the root" else "field " ++ ticked p

def malformedText (p : FieldPath) (defect : Defect) (raw : Json) : String :=
  let fragment := Fragment.render raw
  match defect with
  | .unknownScalar =>
      "Field " ++ ticked p ++ " is declared with unknown scalar type " ++ fragment ++ ". " ++
        scalarHint
  | .nested =>
      "Field " ++ ticked p ++ " is declared with unknown composite type " ++ fragment ++
        ". There are 2 composite types: MAP, ARRAY. Examples: " ++ mapExample ++ ", " ++
        arrayExample ++ ". " ++ nestedHint
  | .map =>
      "MAP type of field " ++ ticked p ++ " has a malformed description " ++ fragment ++
        "! Example: " ++ mapExample ++ ". " ++ nestedHint
  | .array =>
      "ARRAY type of field " ++ ticked p ++ " has a malformed description " ++ fragment ++
        "! Example: " ++ arrayExample ++ ". " ++ nestedHint

def message (i : Issue) : String :=
  match i.problem with
  | .countMismatch fields declared =>
      "Number of JSON fields (" ++ Decimal.natText fields ++
        ") does not match the number of declared field types (" ++
        Decimal.natText declared ++ ") " ++ levelText i.path
  | .undeclared => "Type of field " ++ ticked i.path ++ " is not declared!"
  | .malformed defect raw => malformedText i.path defect raw
  | .valueMismatch value expected =>
      "Value " ++ value.text ++ " of " ++ placeText i.path ++
        " cannot be converted to type " ++ expected ++ "!"
  | .elementMismatch element expected =>
      "Value " ++ element.text ++ " of array " ++ ticked i.path ++
        " cannot be converted to type " ++ expected ++ "!"

end Issue

end SchemaSieve
