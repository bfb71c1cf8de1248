import SchemaSieve.Json.Typed
import SchemaSieve.Options.Basic

/-!
# Reading options

Options are a record whose fields may all be absent.  Written as a list, they
come in the order warnings, element paths, depth.
-/

namespace SchemaSieve

open Json Json.Reader

def warningsValue (containers : Nat) : Reader WarningPolicy :=
  namedValue containers (WarningPolicy.all.map fun p => (p.name, p))

def elementPathsValue (containers : Nat) : Reader ElementPaths :=
  namedValue containers (ElementPaths.all.map fun p => (p.name, p))

structure OptionsGiven where
  warnings : Option WarningPolicy := none
  elementPaths : Option ElementPaths := none
  maxDepth : Option UInt64 := none
deriving DecidableEq, Repr

namespace OptionsGiven

def override (g : OptionsGiven) (o : Options) : Options where
  warnings := g.warnings.getD o.warnings
  elementPaths := g.elementPaths.getD o.elementPaths
  maxDepth := g.maxDepth.getD o.maxDepth

def member (containers : Nat) (g : OptionsGiven) (name : String) : Reader OptionsGiven := do
  if name = Options.warningsName then
    let x ← fieldOnce name g.warnings (warningsValue containers)
    pure { g with warnings := some x }
  else if name = Options.elementPathsName then
    let x ← fieldOnce name g.elementPaths (elementPathsValue containers)
    pure { g with elementPaths := some x }
  else if name = Options.maxDepthName then
    let x ← fieldOnce name g.maxDepth sizeValue
    pure { g with maxDepth := some x }
  else
    otherField name
    pure g

def items (containers : Nat) : Reader OptionsGiven := do
  let warnings ← item? 0 (warningsValue containers)
  if warnings.isNone then return {}
  let elementPaths ← item? 1 (elementPathsValue containers)
  if elementPaths.isNone then return { warnings }
  let maxDepth ← item? 2 sizeValue
  return { warnings, elementPaths, maxDepth }

end OptionsGiven

def optionsValue (containers : Nat) : Reader Options := do
  let given ← recordValue "struct Options" containers
    (fun n => members (OptionsGiven.member n) {})
    OptionsGiven.items
  pure (given.override {})

def Options.read (source : Bytes) : Except Fault Options :=
  (optionsValue containerLimit).run source

end SchemaSieve
