import SchemaSieve.Command.Arguments
import SchemaSieve.Command.Report
import SchemaSieve.Glob.Search
import SchemaSieve.Json.Pointer
import SchemaSieve.Options.Config
import SchemaSieve.Schema.Reading

/-!
# Batches

All that a command line names is read before anything is written: the
configuration, the schema, the patterns and then every document.  One that is a
document by its path but not by its text is refused; everything else that goes
wrong is a failure of the whole batch.
-/

namespace SchemaSieve.Command

inductive RunError where
  | configFile (path : String) (trouble : Trouble)
  | config
  | schemaFile (path : String) (trouble : Trouble)
  | schema (path : String) (source : Bytes) (fault : Json.Fault)
  | pattern (text : String) (error : Glob.PatternError)
  | noMatch (text : String)
  | sourceFile (path : String) (trouble : Trouble)
  | noSelection (pointer path : String)
  | directory (path : String) (trouble : Trouble)
  | target (path : String) (trouble : Trouble)

/-- The causes from the outermost to the innermost, joined by colons.  What is
wrong with a configuration text is not told. -/
def RunError.message : RunError → String
  | .configFile path t =>
      "failed to read config file " ++ path ++ ": " ++ t.text ++ ": " ++ t.text
  | .config => "invalid config: <toml>"
  | .schemaFile path t => "failed to read schema file " ++ path ++ ": " ++ t.text
  | .schema path source fault =>
      "failed to decode schema file " ++ path ++ ": " ++ fault.located source ++ ": " ++
        fault.text source
  | .pattern text e => "bad glob pattern: " ++ text ++ ": " ++ e.message
  | .noMatch text => "glob pattern matched no files: " ++ text
  | .sourceFile path t => "failed to read source file " ++ path ++ ": " ++ t.text
  | .noSelection selector path =>
      "JSON pointer " ++ selector ++ " matched nothing in " ++ path
  | .directory path t => "failed to create " ++ path ++ ": " ++ t.text
  | .target path t => "failed to write " ++ path ++ ": " ++ t.text

/-! ## Settings -/

def configured (fs : Files) : Option String → Except RunError Options
  | none => .ok {}
  | some path =>
      match fs.readText path with
      | .error t => .error (.configFile path t)
      | .ok text =>
          match Options.ofConfig? text with
          | some o => .ok o
          | none => .error .config

def Settings.options (s : Settings) (fs : Files) : Except RunError Options := do
  let o ← configured fs s.config
  .ok
    { warnings := if s.allowWarnings then .report else o.warnings
      elementPaths := if s.indexedElementPaths then .indexed else o.elementPaths
      maxDepth := s.maxDepth.getD o.maxDepth }

def Settings.readSchema (s : Settings) (fs : Files) : Except RunError Schema :=
  match fs.readText s.schema with
  | .error t => .error (.schemaFile s.schema t)
  | .ok text =>
      match Schema.read (bytesOf text) with
      | .error fault => .error (.schema s.schema (bytesOf text) fault)
      | .ok schema => .ok schema

/-- The paths that an input stands for.  One without wildcards stands for
itself, even if nothing is there. -/
def inputPaths (fs : Files) (input : String) : Except RunError (List String) :=
  if Glob.Pattern.isWild input then
    match Glob.Pattern.parse input with
    | .error e => .error (.pattern input e)
    | .ok p => if (p.paths fs).isEmpty then .error (.noMatch input) else .ok (p.paths fs)
  else .ok [input]

def Settings.paths (s : Settings) (fs : Files) : Except RunError (List String) := do
  let paths ← s.inputs.mapM (inputPaths fs)
  .ok paths.flatten

/-! ## Documents -/

def sanitizePart? (o : Options) (text pointer : String) (schema : Schema) :
    Option (Except Refusal Sanitized) :=
  match Json.parse text with
  | .error fault => some (.error (.malformed (bytesOf text) fault))
  | .ok j => (j.select? pointer).map fun part => sanitizeValue o (.ofJson part) schema

def process (fs : Files) (o : Options) (schema : Schema) (pointer : Option String)
    (path : String) : Except RunError Outcome :=
  match fs.readText path with
  | .error t => .error (.sourceFile path t)
  | .ok text =>
      match pointer with
      | none => .ok ⟨path, sanitize o text schema⟩
      | some pointer =>
          match sanitizePart? o text pointer schema with
          | some result => .ok ⟨path, result⟩
          | none => .error (.noSelection pointer path)

def load (fs : Files) (s : Settings) : Except RunError (List Outcome) := do
  let o ← s.options fs
  let schema ← s.readSchema fs
  let paths ← s.paths fs
  paths.mapM (process fs o schema s.pointer)

end SchemaSieve.Command
