import SchemaSieve.Json.Printer
import SchemaSieve.Issue.Path

/-!
# Options

What a run may choose: how array elements are located, whether warnings alone
reject a document, and how deep a document may nest.
-/

namespace SchemaSieve

/-- How array elements are located: at their array, or by their index in it. -/
inductive ElementPaths where
  | shared
  | indexed
deriving DecidableEq, Repr

def ElementPaths.all : List ElementPaths := [.shared, .indexed]

def ElementPaths.name : ElementPaths → String
  | .shared => "shared"
  | .indexed => "indexed"

inductive WarningPolicy where
  | reject
  | report
deriving DecidableEq, Repr

def WarningPolicy.all : List WarningPolicy := [.reject, .report]

def WarningPolicy.name : WarningPolicy → String
  | .reject => "reject"
  | .report => "report"

structure Options where
  warnings : WarningPolicy := .reject
  elementPaths : ElementPaths := .shared
  maxDepth : UInt64 := 64
deriving DecidableEq, Repr

namespace Options

def warningsName : String := "warnings"

def elementPathsName : String := "element-paths"

def maxDepthName : String := "max-depth"

def toJson (o : Options) : Json :=
  .object
    [(warningsName, .string o.warnings.name),
      (elementPathsName, .string o.elementPaths.name),
      (maxDepthName, .number (.ofUInt64 o.maxDepth))]

end Options

end SchemaSieve
