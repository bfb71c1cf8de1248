/-!
# Field paths

The way from the root of a document to a field, as the names passed on it.
Names are joined by colons without being escaped, so different paths may have
one text.
-/

namespace SchemaSieve

structure FieldPath where
  segments : List String
deriving DecidableEq, Repr

namespace FieldPath

def root : FieldPath := ⟨[]⟩

def child (p : FieldPath) (segment : String) : FieldPath := ⟨p.segments ++ [segment]⟩

def isRoot (p : FieldPath) : Bool := p.segments.isEmpty

def separator : String := ":"

def text (p : FieldPath) : String := separator.intercalate p.segments

end FieldPath

end SchemaSieve
