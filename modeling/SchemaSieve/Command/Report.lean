import SchemaSieve.Issue.Reading
import SchemaSieve.Sanitizer
import SchemaSieve.Text.Terminal

/-!
# Reports on documents

What a run says about each document: lines for a reader, or an entry of a JSON
report.
-/

namespace SchemaSieve.Command

open Text

structure Outcome where
  path : String
  result : Except Refusal Sanitized

def Outcome.isAccepted (o : Outcome) : Bool := o.result.isOk

def exitCode (outcomes : List Outcome) : Nat := if outcomes.all (·.isAccepted) then 0 else 1

/-! ## For a reader -/

def acceptedLine (color : Bool) (path : String) : String :=
  paint color .boldGreen "ok" ++ " " ++ path ++ "\n"

def rejectedLine (color : Bool) (path : String) : String :=
  paint color .boldRed "rejected" ++ " " ++ path ++ "\n"

def warningNote (color : Bool) (path : String) (i : Issue) : String :=
  paint color .boldYellow "warning" ++ " " ++ path ++ ": " ++ i.message ++ "\n"

def rejectionNote (color : Bool) (path : String) (e : Refusal) : String :=
  rejectedLine color path ++ indent "  " e.message

def warningLine (color : Bool) (i : Issue) : String :=
  "  " ++ paint color .yellow "warning:" ++ " " ++ i.message ++ "\n"

def errorLine (color : Bool) (message : String) : String :=
  "  " ++ paint color .red "error:" ++ " " ++ message ++ "\n"

def Outcome.check (color : Bool) (o : Outcome) : String :=
  match o.result with
  | .ok s => acceptedLine color o.path ++ String.join (s.warnings.map (warningLine color))
  | .error (.rejected f) =>
      rejectedLine color o.path ++ String.join (f.warnings.map (warningLine color)) ++
        String.join (f.errors.map fun i => errorLine color i.message)
  | .error e => rejectedLine color o.path ++ errorLine color e.message

/-! ## For a machine -/

def issueEntry (i : Issue) : Json :=
  .object
    [("severity", .string i.severity.name), ("code", .string i.code.name),
      ("message", .string i.message)]

inductive Status where
  | accepted
  | rejected
  | invalid
deriving DecidableEq, Repr

def Status.name : Status → String
  | .accepted => "accepted"
  | .rejected => "rejected"
  | .invalid => "invalid"

/-- An entry of a report; only a document that does not pass has a message. -/
structure Entry where
  path : String
  status : Status
  warnings : List Issue
  errors : List Issue
  message : Option String

def Outcome.entry (o : Outcome) : Entry :=
  match o.result with
  | .ok s => ⟨o.path, .accepted, s.warnings, [], none⟩
  | .error (.rejected f) => ⟨o.path, .rejected, f.warnings, f.errors, some f.message⟩
  | .error e => ⟨o.path, .invalid, [], [], some e.message⟩

def Entry.toJson (e : Entry) : Json :=
  .object <|
    [("path", .string e.path), ("status", .string e.status.name),
      ("warnings", .array (e.warnings.map issueEntry)),
      ("errors", .array (e.errors.map issueEntry))] ++
      (e.message.toList.map fun m => ("message", .string m))

def report (outcomes : List Outcome) : Json := .array (outcomes.map (·.entry.toJson))

end SchemaSieve.Command
