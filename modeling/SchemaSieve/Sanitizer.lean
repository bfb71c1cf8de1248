import SchemaSieve.Issue.Failure
import SchemaSieve.Json.Document
import SchemaSieve.Normalization
import SchemaSieve.Validation

/-!
# Sanitizing documents

A document passes when it is JSON, does not nest too deep and has no issue, or
only warnings where these are merely reported.  What passes comes out in normal
form.
-/

namespace SchemaSieve

structure Sanitized where
  value : Value
  warnings : List Issue

inductive Refusal where
  | malformed (source : Bytes) (fault : Json.Fault)
  | tooDeep (depth : Nat) (limit : UInt64)
  | rejected (failure : Failure)
  | noNormalForm (violation : Normalization.Violation)

def Refusal.message : Refusal → String
  | .malformed source fault => "malformed JSON document: " ++ fault.text source
  | .tooDeep depth limit =>
      "document nests " ++ Decimal.natText depth ++ " levels deep, the limit is " ++
        Decimal.natText limit.toNat
  | .rejected failure => failure.message
  | .noNormalForm violation => "internal error: " ++ violation.message

def Value.decode (text : String) : Except Refusal Value :=
  match Json.parse text with
  | .ok j => .ok (.ofJson j)
  | .error fault => .error (.malformed (bytesOf text) fault)

def sanitizeValue (o : Options) (v : Value) (schema : Schema) : Except Refusal Sanitized :=
  if o.maxDepth.toNat < v.depth then .error (.tooDeep v.depth o.maxDepth)
  else
    let issues := Validation.validate o.elementPaths v schema
    if issues.any (·.isError) then .error (.rejected (.ofIssues issues))
    else
      match Normalization.normalizeDocument v schema with
      | .error violation => .error (.noNormalForm violation)
      | .ok w =>
          if !issues.isEmpty && o.warnings = .reject then
            .error (.rejected (.ofIssues issues))
          else .ok ⟨w, issues⟩

def sanitize (o : Options) (text : String) (schema : Schema) : Except Refusal Sanitized := do
  let v ← Value.decode text
  sanitizeValue o v schema

end SchemaSieve
