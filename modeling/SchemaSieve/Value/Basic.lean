import SchemaSieve.Json.Basic

/-!
# Document values

A decoded document.  Integers are signed, or unsigned when they lie above the
signed range; a double may be any double.  `ofJson` and `toJson` lift and lower
JSON trees: a double that is no finite number lowers to `null`.
-/

namespace SchemaSieve

inductive Value where
  | null
  | bool (b : Bool)
  | integer (i : Int64)
  | unsigned (u : UInt64)
  | float (x : Double)
  | string (s : String)
  | sequence (items : List Value)
  | mapping (members : List (String × Value))
deriving Inhabited

namespace Value

/-! ## Lifting and lowering -/

def ofNumber : Number → Value
  | .integer n _ =>
      if n < 0x8000000000000000 then .integer (.ofInt n) else .unsigned (.ofNat n.toNat)
  | .float x _ => .float x

mutual
def ofJson : Json → Value
  | .null => .null
  | .bool b => .bool b
  | .number n => ofNumber n
  | .string s => .string s
  | .array xs => .sequence (ofItems xs)
  | .object ms => .mapping (ofMembers ms)

def ofItems : List Json → List Value
  | [] => []
  | x :: xs => ofJson x :: ofItems xs

def ofMembers : List (String × Json) → List (String × Value)
  | [] => []
  | (name, v) :: ms => (name, ofJson v) :: ofMembers ms
end

mutual
def toJson : Value → Json
  | .null => .null
  | .bool b => .bool b
  | .integer i => .number (.ofInt64 i)
  | .unsigned u => .number (.ofUInt64 u)
  | .float x =>
      match Number.ofDouble? x with
      | some n => .number n
      | none => .null
  | .string s => .string s
  | .sequence xs => .array (toItems xs)
  | .mapping ms => .object (toMembers ms)

def toItems : List Value → List Json
  | [] => []
  | x :: xs => x.toJson :: toItems xs

def toMembers : List (String × Value) → List (String × Json)
  | [] => []
  | (name, v) :: ms => (name, v.toJson) :: toMembers ms
end

/-! ## Equality

Mappings are compared without regard to order, doubles totally, and values of
different kinds are never equal. -/

mutual
def equal : Value → Value → Bool
  | .null, .null => true
  | .bool a, .bool b => a == b
  | .integer i, .integer j => i == j
  | .unsigned u, .unsigned v => u == v
  | .float x, .float y => x.equal y
  | .string s, .string t => s == t
  | .sequence xs, .sequence ys => equalItems xs ys
  | .mapping ms, .mapping ns => ms.length == ns.length && equalMembers ms ns
  | _, _ => false

def equalItems : List Value → List Value → Bool
  | [], [] => true
  | x :: xs, y :: ys => x.equal y && equalItems xs ys
  | _, _ => false

def equalMembers : List (String × Value) → List (String × Value) → Bool
  | [], _ => true
  | (name, v) :: ms, ns =>
      (match Members.get? ns name with
        | some w => v.equal w
        | none => false) && equalMembers ms ns
end

end Value

end SchemaSieve
