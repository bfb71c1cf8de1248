import SchemaSieve.Conformance.Verdict
import SchemaSieve.Glob.Search
import SchemaSieve.Text.Terminal

/-!
# Conformance runs

A run takes the cases in the files that a pattern describes, says of each
whether it passes and ends with a count.  A file that cannot be read or holds no
case ends the run at once.
-/

namespace SchemaSieve.Conformance

open Text

inductive RunError where
  | pattern (error : Glob.PatternError)
  | noCases (pattern : String)
  | unreadable (path : String) (trouble : Trouble)
  | noCase (path : String) (source : Bytes) (fault : Json.Fault)

def hanging (margin text : String) : String :=
  ("\n" ++ margin).intercalate ((text.toList.splitOn '\n').map String.ofList)

def RunError.message : RunError → String
  | .pattern e => "Error: " ++ e.message ++ "\n"
  | .noCases text => "Error: no cases matched " ++ text ++ "\n"
  | .unreadable path t =>
      "Error: failed to read " ++ path ++ "\n\nCaused by:\n    " ++ t.text ++ "\n"
  | .noCase path source fault =>
      "Error: failed to decode case " ++ path ++ "\n\nCaused by:\n    0: " ++
        hanging "       " (fault.located source) ++ "\n    1: " ++
        hanging "       " (fault.text source) ++ "\n"

structure Progress where
  passed : Nat := 0
  failed : Nat := 0
  err : String := ""

namespace Progress

def describe (color : Bool) : Option String → String
  | none => ""
  | some description => "   " ++ paint color .dimmed description ++ "\n"

def add (color : Bool) (p : Progress) (name : String) (c : Case) : Progress :=
  match c.verdict with
  | .ok () => { p with passed := p.passed + 1, err := p.err ++ "✅ " ++ name ++ "\n" }
  | .error m =>
      { p with
        failed := p.failed + 1
        err := p.err ++ paint color .red "❌" ++ " " ++ name ++ ": " ++ m.text ++ "\n" ++
          describe color c.description }

end Progress

def readCase (fs : Files) (path : String) : Except RunError Case :=
  match fs.readText path with
  | .error t => .error (.unreadable path t)
  | .ok text =>
      match Case.read (bytesOf text) with
      | .error fault => .error (.noCase path (bytesOf text) fault)
      | .ok c => .ok c

def takeUp (color : Bool) (fs : Files) : List String → Progress → Progress × Option RunError
  | [], p => (p, none)
  | path :: paths, p =>
      match readCase fs path with
      | .error e => (p, some e)
      | .ok c => takeUp color fs paths (p.add color (Path.stem path) c)

structure Finished where
  exit : Nat
  err : String

def summary (p : Progress) : String :=
  "—— " ++ Decimal.natText p.passed ++ " passed, " ++ Decimal.natText p.failed ++
    " failed ——\n"

def finish : Progress × Option RunError → Finished
  | (p, some e) => ⟨1, p.err ++ e.message⟩
  | (p, none) => ⟨if p.failed = 0 then 0 else 1, p.err ++ summary p⟩

def run (color : Bool) (fs : Files) (text : String) : Finished :=
  match Glob.Pattern.parse text with
  | .error e => finish ({}, some (.pattern e))
  | .ok pattern =>
      match pattern.paths fs with
      | [] => finish ({}, some (.noCases text))
      | paths => finish (takeUp color fs paths {})

end SchemaSieve.Conformance
