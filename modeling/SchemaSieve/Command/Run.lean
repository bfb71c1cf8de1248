import SchemaSieve.Command.Batch

/-!
# Runs

A run is a function of the command line and the files: it gives an exit code,
what is printed and the files as they are then.  Results are written one after
the other, so that a failure to write leaves those before it.
-/

namespace SchemaSieve.Command

open Text

structure Transcript where
  out : String
  err : String
  files : Files

inductive Action where
  | print (text : String)
  | note (text : String)
  | store (directory name text : String)

namespace Action

/-- Do one thing; to store a text makes its directory first. -/
def perform (t : Transcript) : Action → Except RunError Transcript
  | .print text => .ok { t with out := t.out ++ text }
  | .note text => .ok { t with err := t.err ++ text }
  | .store directory name text =>
      match t.files.makeDirectories directory with
      | .error e => .error (.directory directory e)
      | .ok fs =>
          match fs.write directory name (bytesOf text) with
          | .error e => .error (.target (Path.join directory name) e)
          | .ok fs => .ok { t with files := fs }

def performAll : Transcript → List Action → Transcript × Option RunError
  | t, [] => (t, none)
  | t, a :: rest =>
      match a.perform t with
      | .ok t => performAll t rest
      | .error e => (t, some e)

end Action

/-! ## Results -/

def render (compact : Bool) (v : Value) : String := if compact then v.compact else v.pretty

def resultName (path : String) : String := Path.stem path ++ ".json"

def sanitizeActions (color : Bool) (out : Option String) (compact : Bool) (o : Outcome) :
    List Action :=
  match o.result with
  | .error e => [.note (rejectionNote color o.path e)]
  | .ok s =>
      let text := render compact s.value
      s.warnings.map (fun i => .note (warningNote color o.path i)) ++
        [match out with
          | none => .print (text ++ "\n")
          | some directory => .store directory (resultName o.path) text]

def checkActions (color json : Bool) (outcomes : List Outcome) : List Action :=
  if json then [.print ((report outcomes).pretty ++ "\n")]
  else outcomes.map fun o => .print (o.check color)

/-! ## Runs -/

def usageText : String := "<usage>"

def versionText : String := "json-sanitizer 0.1.0\n"

structure Finished where
  exit : Nat
  transcript : Transcript

def failureNote (color : Bool) (e : RunError) : String :=
  paint color .red "error:" ++ " " ++ e.message ++ "\n"

def failed (color : Bool) (t : Transcript) (e : RunError) : Finished :=
  ⟨2, { t with err := t.err ++ failureNote color e }⟩

def runBatch (color : Bool) (fs : Files) (s : Settings)
    (actions : List Outcome → List Action) : Finished :=
  let t : Transcript := ⟨"", "", fs⟩
  match load fs s with
  | .error e => failed color t e
  | .ok outcomes =>
      match Action.performAll t (actions outcomes) with
      | (t, none) => ⟨exitCode outcomes, t⟩
      | (t, some e) => failed color t e

def run (color : Bool) (fs : Files) (arguments : List String) : Finished :=
  match request arguments with
  | .help => ⟨0, ⟨usageText, "", fs⟩⟩
  | .version => ⟨0, ⟨versionText, "", fs⟩⟩
  | .misuse => ⟨2, ⟨"", usageText, fs⟩⟩
  | .sanitize s out compact =>
      runBatch color fs s fun outcomes => outcomes.flatMap (sanitizeActions color out compact)
  | .check s json => runBatch color fs s (checkActions color json)

end SchemaSieve.Command
