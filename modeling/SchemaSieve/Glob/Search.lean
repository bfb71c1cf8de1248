import SchemaSieve.Files.Basic
import SchemaSieve.Glob.Pattern

/-!
# Searching files

The paths that a pattern describes are found part by part from the working
directory on, those in one directory by name.  A part without wildcards is not
looked for in a listing: it only has to lead somewhere.
-/

namespace SchemaSieve.Glob

/-- A path as the search builds it: the working directory itself is left out. -/
def extend (path name : String) : String :=
  if Path.isHere path then name else Path.join path name

def children (fs : Files) (path : String) : List (String × String) :=
  (fs.namesAt path).map fun name => (name, extend path name)

/-- Go through everything below a path, a directory before what it holds.
`levels` bounds the depth. -/
def below (fs : Files) (visit : String × String → List String) :
    Nat → String → List String
  | 0, _ => []
  | levels + 1, path =>
      (children fs path).flatMap fun child =>
        visit child ++
          if fs.isDirectoryAt child.2 then below fs visit levels child.2 else []

def found (fs : Files) (onlyDirectories : Bool) (path : String) : List String :=
  if onlyDirectories && !fs.isDirectoryAt path then [] else [path]

def search (fs : Files) (onlyDirectories : Bool) : List Part → String → List String
  | [], path => found fs onlyDirectories path
  | .name s :: parts, path =>
      let next := extend path s
      let leads :=
        if s = "." || s = ".." then fs.isDirectoryAt path else fs.leads next
      if leads then search fs onlyDirectories parts next else []
  | .wild ts :: parts, path =>
      if fs.isDirectoryAt path then
        (Part.wild ts).specials.flatMap
            (fun name => search fs onlyDirectories parts (Path.join path name)) ++
          (children fs path).flatMap fun child =>
            if (Part.wild ts).admits child.1 then search fs onlyDirectories parts child.2 else []
      else []
  | [.directories], path =>
      below fs (fun child => if fs.isDirectoryAt child.2 then [child.2] else []) fs.height path
  | .directories :: part :: parts, path =>
      below fs
        (fun child =>
          if part.admits child.1 then search fs onlyDirectories parts child.2 else [])
        fs.height path

def Pattern.paths (p : Pattern) (fs : Files) : List String :=
  search fs p.onlyDirectories p.parts (if p.absolute then "/" else ".")

end SchemaSieve.Glob
