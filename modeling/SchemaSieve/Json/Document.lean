import SchemaSieve.Json.Containers

/-!
# Reading trees

A tree is any JSON value.  Containers nest up to a limit, which the reader
takes as the number of containers that may still be opened.  A document is one
tree with nothing but blanks around it.
-/

namespace SchemaSieve.Json

def containerLimit : Nat := 127

namespace Reader

def treeWith (list object : Reader Json) : Reader Json := do
  match ← lookPastSpace with
  | none => failPast .endOfValue
  | some b =>
      if b = byte 'n' then
        skip
        word [byte 'u', byte 'l', byte 'l']
        pure .null
      else if b = byte 't' then
        skip
        word [byte 'r', byte 'u', byte 'e']
        pure (.bool true)
      else if b = byte 'f' then
        skip
        word [byte 'a', byte 'l', byte 's', byte 'e']
        pure (.bool false)
      else if b = byte '-' || isDigitByte b then
        let n ← number
        pure (.number n)
      else if b = byte '"' then
        skip
        let s ← string
        pure (.string s)
      else if b = byte '[' then list
      else if b = byte '{' then object
      else failPast .expectedValue

/-- A member of an object of trees; a name that comes again replaces the value
at its first place. -/
def treeMember (tree : Reader Json) (ms : Members Json) (name : String) :
    Reader (Members Json) := do
  colon
  let v ← within (.name name) tree
  pure (ms.put name v)

def tree : Nat → Reader Json
  | 0 => treeWith (failPast .tooManyContainers) (failPast .tooManyContainers)
  | n + 1 =>
      treeWith
        (do
          skip
          let xs ← items (tree n)
          pure (.array xs))
        (do
          skip
          let ms ← members (treeMember (tree n)) []
          pure (.object ms))

def finish : Reader Unit := do
  match ← lookPastSpace with
  | none => pure ()
  | some _ => failPast .trailingCharacters

def document : Reader Json := do
  let j ← tree containerLimit
  finish
  pure j

end Reader

def parse (text : String) : Except Fault Json :=
  Reader.document.run (bytesOf text)

end SchemaSieve.Json
