import SchemaSieve.Json.Typed
import SchemaSieve.Schema.Descriptor

/-!
# Reading schemas

A schema text is an object of raw descriptors.  What follows the first value of
the text is not looked at.
-/

namespace SchemaSieve

open Json Json.Reader

def schemaValue (containers : Nat) : Reader Schema :=
  mapValue containers
    (fun n fields name => do
      let raw ← fieldValue name (tree n)
      pure (Members.put fields name (Descriptor.classify raw)))
    []

namespace Schema

def read (source : Bytes) : Except Fault Schema :=
  (schemaValue containerLimit).run source

def ofJson : Json → Except Reason Schema
  | .object fields => .ok (Descriptor.classifyFields fields)
  | .null => .error (.invalidType .null "a map")
  | .bool b => .error (.invalidType (.boolean b) "a map")
  | .number n => .error (.invalidType (.number n) "a map")
  | .string s => .error (.invalidType (.string s) "a map")
  | .array _ => .error (.invalidType .sequence "a map")

end Schema

end SchemaSieve
