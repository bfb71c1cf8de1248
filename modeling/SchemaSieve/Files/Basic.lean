import SchemaSieve.Files.Path
import SchemaSieve.Text.Bytes

/-!
# Files

The files of a system as far as they are known, with the directories made in it
and the working directory.  Relative paths start at the working directory and
absolute ones at the root, which is its own parent.

Reading, listing and writing follow a path name by name, and fail where a name
is missing or is no directory.
-/

namespace SchemaSieve

abbrev Place := List String

inductive Trouble where
  | notFound
  | alreadyThere
  | notDirectory
  | isDirectory
  | tooLong
  | notText
deriving DecidableEq, Repr

def Trouble.text : Trouble → String
  | .notFound => "No such file or directory (os error 2)"
  | .alreadyThere => "File exists (os error 17)"
  | .notDirectory => "Not a directory (os error 20)"
  | .isDirectory => "Is a directory (os error 21)"
  | .tooLong => "File name too long (os error 36)"
  | .notText => "stream did not contain valid UTF-8"

structure Files where
  contents : List (Place × Bytes)
  /-- Directories that need no file below them to be there. -/
  directories : List Place
  here : Place
deriving DecidableEq

namespace Files

def content? (fs : Files) (p : Place) : Option Bytes := fs.contents.lookup p

def isAbove (p q : Place) : Bool := p.isPrefixOf q && p.length < q.length

def isDirectory (fs : Files) (p : Place) : Bool :=
  p.isPrefixOf fs.here || fs.directories.any (p.isPrefixOf ·) ||
    fs.contents.any (isAbove p ·.1)

def isThere (fs : Files) (p : Place) : Bool := (fs.content? p).isSome || fs.isDirectory p

/-! ## Following paths -/

def step (fs : Files) (p : Place) (name : String) : Except Trouble Place :=
  if !fs.isDirectory p then .error .notDirectory
  else if Path.isIdle name then .ok p
  else if name = ".." then .ok p.dropLast
  else if Path.isLongName name then .error .tooLong
  else if fs.isThere (p ++ [name]) then .ok (p ++ [name])
  else .error .notFound

def follow (fs : Files) (p : Place) (names : List String) : Except Trouble Place :=
  names.foldlM fs.step p

def start (fs : Files) (path : String) : Place :=
  if path.toList.head? = some Path.slash then [] else fs.here

def locate (fs : Files) (path : String) : Except Trouble Place :=
  if path = "" then .error .notFound
  else if Path.isLong path then .error .tooLong
  else fs.follow (fs.start path) (Path.parts path)

def leads (fs : Files) (path : String) : Bool := (fs.locate path).isOk

def isDirectoryAt (fs : Files) (path : String) : Bool :=
  match fs.locate path with
  | .ok p => fs.isDirectory p
  | .error _ => false

/-! ## Reading -/

def read (fs : Files) (path : String) : Except Trouble Bytes := do
  let p ← fs.locate path
  match fs.content? p with
  | some bytes => .ok bytes
  | none => .error .isDirectory

def readText (fs : Files) (path : String) : Except Trouble String := do
  let bytes ← fs.read path
  match textOf? bytes with
  | some text => .ok text
  | none => .error .notText

def towards? (p q : Place) : Option String :=
  if p.isPrefixOf q then (q.drop p.length).head? else none

def names (fs : Files) (p : Place) : List String :=
  let below := (fs.here :: fs.directories ++ fs.contents.map Prod.fst).filterMap (towards? p)
  below.eraseDups.mergeSort fun a b => decide (a ≤ b)

def namesAt (fs : Files) (path : String) : List String :=
  match fs.locate path with
  | .ok p => fs.names p
  | .error _ => []

/-- A bound on the number of names that lead to any place. -/
def height (fs : Files) : Nat :=
  ((fs.here :: fs.directories ++ fs.contents.map Prod.fst).map List.length).foldl max 0

/-! ## Writing -/

def put (fs : Files) (p : Place) (bytes : Bytes) : Files :=
  { fs with contents := (p, bytes) :: fs.contents.filter (·.1 ≠ p) }

/-- Make the directory that names lead to from a place.  Only the last of them
may lead nowhere yet. -/
def makeDirectory (fs : Files) (p : Place) (names : List String) : Except Trouble Files :=
  match names.getLast? with
  | none => .error .alreadyThere
  | some name => do
      let above ← fs.follow p names.dropLast
      match fs.step above name with
      | .ok _ => .error .alreadyThere
      | .error .notFound =>
          .ok { fs with directories := fs.directories ++ [above ++ [name]] }
      | .error e => .error e

def ensureDirectory (fs : Files) (p : Place) (names : List String) : Except Trouble Files :=
  match fs.makeDirectory p names, fs.follow p names with
  | .ok fs, _ => .ok fs
  | .error e, .ok q => if fs.isDirectory q then .ok fs else .error e
  | .error e, .error _ => .error e

def ensureAll (fs : Files) (p : Place) (names : List String) :
    List (List String) → Except Trouble Files
  | [] => fs.ensureDirectory p names
  | above :: more =>
      match fs.ensureDirectory p names with
      | .error .notFound => do
          let fs ← ensureAll fs p above more
          fs.ensureDirectory p names
      | result => result

/-- Make the directory at a path with all that are missing above it.  A path
that ends in a point names the directory before the point, which it does not
make. -/
def makeDirectories (fs : Files) (path : String) : Except Trouble Files :=
  let names := ((Path.parts path).reverse.dropWhile (· = "")).reverse
  if Path.isLong path then .error .tooLong
  else fs.ensureAll (fs.start path) names (Path.ancestors names)

def write (fs : Files) (directory name : String) (bytes : Bytes) : Except Trouble Files := do
  if Path.isLong (Path.join directory name) then .error .tooLong
  else
    let p ← fs.locate directory
    match fs.step p name with
    | .ok q => if fs.isDirectory q then .error .isDirectory else .ok (fs.put q bytes)
    | .error .notFound => .ok (fs.put (p ++ [name]) bytes)
    | .error e => .error e

/-! ## Changes -/

def changes (fs after : Files) : List (Place × Bytes) :=
  after.contents.filter fun f => fs.content? f.1 ≠ some f.2

def relative? (fs : Files) (p : Place) : Option String :=
  if fs.here.isPrefixOf p then
    some ((String.singleton Path.slash).intercalate (p.drop fs.here.length))
  else none

def changesHere (fs after : Files) : List (String × Bytes) :=
  let named := (fs.changes after).filterMap fun f => (fs.relative? f.1).map (·, f.2)
  named.mergeSort fun a b => decide (a.1 ≤ b.1)

end Files

end SchemaSieve
