import SchemaSieve.Issue.Reading
import SchemaSieve.Options.Reading
import SchemaSieve.Schema.Reading

/-!
# Conformance cases

A case is a document with its schema and options, and what is expected of
sanitizing it.
-/

namespace SchemaSieve.Conformance

open Json Json.Reader

inductive Expectation where
  | accepted (value : Json) (warnings : List IssueCode)
  | rejected (warnings errors : List IssueCode)
  | tooDeep

structure Case where
  description : Option String
  document : Json
  schema : Schema
  options : Options
  expected : Expectation

/-! ## Expectations -/

def codesValue (containers : Nat) : Reader (List IssueCode) := listValue containers codeValue

structure AcceptedGiven where
  value : Option Json := none
  warnings : Option (List IssueCode) := none

def acceptedName : String := "struct variant Expect::Accepted"

def acceptedValue (containers : Nat) : Reader Expectation :=
  recordValue acceptedName containers
    (fun n => do
      let given ← members
        (fun (g : AcceptedGiven) name => do
          if name = "value" then
            let x ← fieldOnce name g.value (tree n)
            pure { g with value := some x }
          else if name = "warnings" then
            let x ← fieldOnce name g.warnings (codesValue n)
            pure { g with warnings := some x }
          else
            otherField name
            pure g)
        {}
      let value ← required "value" given.value
      pure (.accepted value (given.warnings.getD [])))
    (fun n => do
      match ← item? 0 (tree n) with
      | none => failUnplaced (.invalidLength 0 (acceptedName ++ " with 2 elements"))
      | some value =>
          let warnings ← item? 1 (codesValue n)
          pure (.accepted value (warnings.getD [])))

structure RejectedGiven where
  warnings : Option (List IssueCode) := none
  errors : Option (List IssueCode) := none

def RejectedGiven.expectation (g : RejectedGiven) : Expectation :=
  .rejected (g.warnings.getD []) (g.errors.getD [])

def rejectedValue (containers : Nat) : Reader Expectation :=
  recordValue "struct variant Expect::Rejected" containers
    (fun n => do
      let given ← members
        (fun (g : RejectedGiven) name => do
          if name = "warnings" then
            let x ← fieldOnce name g.warnings (codesValue n)
            pure { g with warnings := some x }
          else if name = "errors" then
            let x ← fieldOnce name g.errors (codesValue n)
            pure { g with errors := some x }
          else
            otherField name
            pure g)
        {}
      pure given.expectation)
    (fun n => do
      match ← item? 0 (codesValue n) with
      | none => pure (.rejected [] [])
      | some warnings =>
          let errors ← item? 1 (codesValue n)
          pure (.rejected warnings (errors.getD [])))

inductive Kind where
  | accepted
  | rejected
  | tooDeep

def kinds : List (String × Kind) :=
  [("accepted", .accepted), ("rejected", .rejected), ("too-deep", .tooDeep)]

def expectationValue (containers : Nat) : Reader Expectation :=
  variantValue containers kinds
    (fun name kind =>
      match kind with
      | .tooDeep => pure .tooDeep
      | _ => within (.name name) (failUnplaced (.invalidType .unitVariant "struct variant")))
    (fun n _ kind =>
      match kind with
      | .accepted => acceptedValue n
      | .rejected => rejectedValue n
      | .tooDeep => do
          unitValue
          pure .tooDeep)

/-! ## Cases -/

structure CaseGiven where
  description : Option (Option String) := none
  document : Option Json := none
  schema : Option Schema := none
  options : Option Options := none
  expected : Option Expectation := none

def descriptionValue : Reader (Option String) := optionalValue (textValue "a string")

def CaseGiven.member (containers : Nat) (g : CaseGiven) (name : String) : Reader CaseGiven := do
  if name = "description" then
    let x ← fieldOnce name g.description descriptionValue
    pure { g with description := some x }
  else if name = "document" then
    let x ← fieldOnce name g.document (tree containers)
    pure { g with document := some x }
  else if name = "schema" then
    let x ← fieldOnce name g.schema (schemaValue containers)
    pure { g with schema := some x }
  else if name = "options" then
    let x ← fieldOnce name g.options (optionsValue containers)
    pure { g with options := some x }
  else if name = "expect" then
    let x ← fieldOnce name g.expected (expectationValue containers)
    pure { g with expected := some x }
  else
    otherField name
    pure g

/-- The case of an object, where a description and options may be absent. -/
def caseObject (containers : Nat) : Reader Case := do
  let g ← members (CaseGiven.member containers) {}
  let document ← required "document" g.document
  let schema ← required "schema" g.schema
  let expected ← required "expect" g.expected
  pure ⟨g.description.join, document, schema, g.options.getD {}, expected⟩

def caseItem {α : Type} (i : Nat) (x : Reader α) : Reader α := do
  match ← item? i x with
  | some a => pure a
  | none => failUnplaced (.invalidLength i "struct Case with 5 elements")

def caseList (containers : Nat) : Reader Case := do
  let description ← item? 0 descriptionValue
  let document ← caseItem 1 (tree containers)
  let schema ← caseItem 2 (schemaValue containers)
  let options ← item? 3 (optionsValue containers)
  let expected ← caseItem 4 (expectationValue containers)
  pure ⟨description.join, document, schema, options.getD {}, expected⟩

def Case.read (source : Bytes) : Except Fault Case :=
  (recordValue "struct Case" containerLimit caseObject caseList).run source

end SchemaSieve.Conformance
