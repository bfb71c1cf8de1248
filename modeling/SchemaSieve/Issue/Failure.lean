import SchemaSieve.Issue.Basic

/-!
# Failures

A rejected document carries every issue of its validation, warnings and errors
apart and each in the order found.
-/

namespace SchemaSieve

structure Failure where
  warnings : List Issue
  errors : List Issue

namespace Failure

def ofIssues (issues : List Issue) : Failure where
  warnings := issues.filter (!·.isError)
  errors := issues.filter (·.isError)

def issues (f : Failure) : List Issue := f.warnings ++ f.errors

/-- A titled block of messages, one to a line; no block without issues. -/
def block (title : String) : List Issue → String
  | [] => ""
  | issues => title ++ "\n" ++ String.join (issues.map fun i => i.message ++ "\n")

def message (f : Failure) : String :=
  block "Warnings:" f.warnings ++ block "Errors:" f.errors

end Failure

end SchemaSieve
