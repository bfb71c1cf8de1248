import SchemaSieve.Options.Basic
import SchemaSieve.Toml.Statement

/-!
# Options in a configuration file

A configuration is a TOML text whose table `sanitizer` holds the options.  Other
names are ignored, and what is not given keeps its usual value.
-/

namespace SchemaSieve.Options

def tableName : String := "sanitizer"

def isEmptyContainer : Toml → Bool
  | .array xs => xs.isEmpty
  | .table fields => fields.isEmpty
  | _ => false

def choice? {α : Type} (known : List (String × α)) : Toml → Option α
  | .string name => known.lookup name
  | .table [(name, content)] =>
      if isEmptyContainer content then known.lookup name else none
  | _ => none

def warningsOf? : Toml → Option WarningPolicy :=
  choice? (WarningPolicy.all.map fun p => (p.name, p))

def elementPathsOf? : Toml → Option ElementPaths :=
  choice? (ElementPaths.all.map fun p => (p.name, p))

def maxDepthOf? : Toml → Option UInt64
  | .integer i => if 0 ≤ i then some i.toUInt64 else none
  | _ => none

def orUsual {α : Type} (x : Toml → Option α) (usual : α) : Option Toml → Option α
  | none => some usual
  | some v => x v

def ofGiven? (warnings elementPaths maxDepth : Option Toml) : Option Options := do
  let usual : Options := {}
  some
    { warnings := ← orUsual warningsOf? usual.warnings warnings
      elementPaths := ← orUsual elementPathsOf? usual.elementPaths elementPaths
      maxDepth := ← orUsual maxDepthOf? usual.maxDepth maxDepth }

/-- Options as a table, or as an array in the order warnings, element paths,
depth.  A date or time counts as a table that names no option. -/
def ofToml? : Toml → Option Options
  | .table fields =>
      ofGiven? (Members.get? fields warningsName) (Members.get? fields elementPathsName)
        (Members.get? fields maxDepthName)
  | .array xs => ofGiven? xs[0]? xs[1]? xs[2]?
  | .moment => some {}
  | _ => none

def ofConfig? (text : String) : Option Options := do
  let fields ← Toml.document? text
  orUsual ofToml? {} (Members.get? fields tableName)

end SchemaSieve.Options
