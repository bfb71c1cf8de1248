import SchemaSieve.Command.Run

/-!
# The program

The command line is carried out on the files that it names, as they are at the
start; a pattern describes those of them that fit.  What the run prints and
writes is then printed and written.
-/

namespace SchemaSieve.Program

open Command

def follow (p : Place) (path : String) : Place :=
  (Path.parts path).foldl
    (fun p name => if Path.isIdle name then p else if name = ".." then p.dropLast else p ++ [name])
    p

def namedPaths : Request → List String
  | .sanitize s _ _ | .check s _ =>
      s.schema :: s.config.toList ++ s.inputs.filter (!Glob.Pattern.isWild ·)
  | _ => []

def look (fs : Files) (path : String) : IO Files := do
  let p := follow (fs.start path) path
  try
    let bytes ← IO.FS.readBinFile path
    return fs.put p bytes.toList
  catch
    | .noFileOrDirectory .. => return fs
    | _ => return { fs with directories := p :: fs.directories }

def textOfPlace (p : Place) : String := "/" ++ "/".intercalate p

def store (changes : List (Place × Bytes)) : IO Unit :=
  changes.forM fun (p, bytes) => do
    IO.FS.createDirAll (textOfPlace p.dropLast)
    IO.FS.writeBinFile (textOfPlace p) ⟨bytes.toArray⟩

end SchemaSieve.Program

open SchemaSieve

def main (arguments : List String) : IO UInt32 := do
  let here := Program.follow [] s!"{← IO.currentDir}"
  let color := (← IO.getEnv "CLICOLOR_FORCE").any (· ≠ "0")
  let paths := Program.namedPaths (Command.request arguments)
  let fs ← paths.foldlM Program.look ⟨[], [], here⟩
  let f := Command.run color fs arguments
  Program.store (fs.changes f.transcript.files)
  (← IO.getStdout).putStr f.transcript.out
  (← IO.getStderr).putStr f.transcript.err
  return f.exit.toUInt32
