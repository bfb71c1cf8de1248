import SchemaSieve.Conformance.Case
import SchemaSieve.Sanitizer

/-!
# Verdicts on cases

A case passes when its document is sanitized to the value expected, with the
warnings expected, or is refused as expected.
-/

/-! ## Trees for diagnosis

A form of trees that names the kind of every value and shows strings with all
their characters visible.
-/

namespace SchemaSieve.Json

mutual
def debug : Json → String
  | .null => "Null"
  | .bool b => "Bool(" ++ String.ofList (boolChars b) ++ ")"
  | .number n => "Number(" ++ String.ofList n.chars ++ ")"
  | .string s => "String(" ++ Text.Visible.quote s ++ ")"
  | .array xs => "Array [" ++ ", ".intercalate (debugItems xs) ++ "]"
  | .object ms => "Object \x7b" ++ ", ".intercalate (debugMembers ms) ++ "\x7d"

def debugItems : List Json → List String
  | [] => []
  | x :: xs => x.debug :: debugItems xs

def debugMembers : List (String × Json) → List String
  | [] => []
  | (name, v) :: ms => (Text.Visible.quote name ++ ": " ++ v.debug) :: debugMembers ms
end

end SchemaSieve.Json

namespace SchemaSieve.Conformance

inductive Mismatch where
  | value (expected actual : Json)
  | warnings (expected actual : List IssueCode)
  | errors (expected actual : List IssueCode)
  | accepted (expected : Expectation) (actual : Value)
  | refused (expected : Expectation) (actual : Refusal)

/-! ## Messages -/

def codesText (codes : List IssueCode) : String :=
  "[" ++ ", ".intercalate (codes.map (·.title)) ++ "]"

def Expectation.text : Expectation → String
  | .accepted value warnings =>
      "Accepted \x7b value: " ++ value.debug ++ ", warnings: " ++ codesText warnings ++ " \x7d"
  | .rejected warnings errors =>
      "Rejected \x7b warnings: " ++ codesText warnings ++ ", errors: " ++ codesText errors ++
        " \x7d"
  | .tooDeep => "TooDeep"

def Mismatch.text : Mismatch → String
  | .value expected actual =>
      "expected value " ++ expected.compact ++ ", got " ++ actual.compact
  | .warnings expected actual =>
      "expected warnings " ++ codesText expected ++ ", got " ++ codesText actual
  | .errors expected actual =>
      "expected errors " ++ codesText expected ++ ", got " ++ codesText actual
  | .accepted expected actual =>
      "expected " ++ expected.text ++ ", document was accepted as " ++ actual.text
  | .refused expected actual =>
      "expected " ++ expected.text ++ ", got error: " ++ actual.message

/-! ## Verdicts -/

def codes (issues : List Issue) : List IssueCode := issues.map (·.code)

def Expectation.meets (e : Expectation) (r : Except Refusal Sanitized) : Except Mismatch Unit :=
  match e, r with
  | .accepted value warnings, .ok s =>
      if !s.value.toJson.equal value then .error (.value value s.value.toJson)
      else if codes s.warnings ≠ warnings then .error (.warnings warnings (codes s.warnings))
      else .ok ()
  | .rejected warnings errors, .error (.rejected f) =>
      if codes f.warnings ≠ warnings then .error (.warnings warnings (codes f.warnings))
      else if codes f.errors ≠ errors then .error (.errors errors (codes f.errors))
      else .ok ()
  | .tooDeep, .error (.tooDeep _ _) => .ok ()
  | e, .ok s => .error (.accepted e s.value)
  | e, .error refusal => .error (.refused e refusal)

def Case.verdict (c : Case) : Except Mismatch Unit :=
  c.expected.meets (sanitize c.options c.document.compact c.schema)

end SchemaSieve.Conformance
