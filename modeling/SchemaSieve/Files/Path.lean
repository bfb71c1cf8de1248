/-!
# Paths as text

Paths are written with slashes between names.  They are kept as written, since
messages show them so.
-/

namespace SchemaSieve.Path

def slash : Char := '/'

def nameLimit : Nat := 255

def pathLimit : Nat := 4095

def parts (path : String) : List String := (path.toList.splitOn slash).map String.ofList

/-- A name that leads nowhere: none at all or a single point. -/
def isIdle (name : String) : Bool := name = "" || name = "."

def isLongName (name : String) : Bool := nameLimit < name.utf8ByteSize

def isLong (path : String) : Bool := pathLimit < path.utf8ByteSize

def ancestors (names : List String) : List (List String) :=
  let steps := names.filter (!isIdle ·)
  (List.range steps.length).reverse.map steps.take

def join (path name : String) : String :=
  if path = "" || path.toList.getLast? = some slash then path ++ name
  else path ++ String.singleton slash ++ name

def isHere (path : String) : Bool :=
  match parts path with
  | first :: rest => first = "." && rest.all isIdle
  | [] => false

def name? (path : String) : Option String :=
  ((parts path).filter (!isIdle ·)).getLast?.filter (· ≠ "..")

/-- A name without its last point and what follows; a point that comes first
stays. -/
def stemOfName (name : String) : String :=
  let cs := name.toList
  let before := (cs.reverse.dropWhile (· ≠ '.')).tail.reverse
  if before = [] then name else String.ofList before

def stem (path : String) : String := ((name? path).map stemOfName).getD ""

end SchemaSieve.Path
