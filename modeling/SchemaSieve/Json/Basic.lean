import SchemaSieve.Double.Basic
import SchemaSieve.Members

/-!
# JSON trees

A tree keeps the class of its numbers: an integer that fits sixty-four bits,
with or without sign, stays exact, and every other number is a finite double.
Objects are members in order.
-/

namespace SchemaSieve

inductive Number where
  | integer (n : Int) (range : -0x8000000000000000 ≤ n ∧ n < 0x10000000000000000)
  | float (x : Double) (finite : x.isFinite = true)
deriving DecidableEq

inductive Json where
  | null
  | bool (b : Bool)
  | number (n : Number)
  | string (s : String)
  | array (items : List Json)
  | object (members : List (String × Json))
deriving Inhabited

namespace Number

def ofUInt64 (u : UInt64) : Number :=
  .integer u.toNat ⟨by omega, by have := u.toNat_lt; omega⟩

def ofInt64 (i : Int64) : Number :=
  .integer i.toInt ⟨i.le_toInt, by have := i.toInt_lt; omega⟩

def ofDouble? (x : Double) : Option Number :=
  if h : x.isFinite = true then some (.float x h) else none

def int? : Number → Option Int
  | .integer n _ => some n
  | .float _ _ => none

/-- Numbers of one class are equal by value, so the two zeros are; numbers of
different classes never are. -/
def equal : Number → Number → Bool
  | .integer m _, .integer n _ => m = n
  | .float x _, .float y _ => x.equal y
  | _, _ => false

end Number

namespace Json

def int? : Json → Option Int
  | .number n => n.int?
  | _ => none

/-! ## Equality

Objects are compared without regard to the order of their members. -/

mutual
def equal : Json → Json → Bool
  | .null, .null => true
  | .bool a, .bool b => a == b
  | .number a, .number b => a.equal b
  | .string a, .string b => a == b
  | .array xs, .array ys => equalItems xs ys
  | .object ms, .object ns => ms.length == ns.length && equalMembers ms ns
  | _, _ => false

def equalItems : List Json → List Json → Bool
  | [], [] => true
  | x :: xs, y :: ys => x.equal y && equalItems xs ys
  | _, _ => false

def equalMembers : List (String × Json) → List (String × Json) → Bool
  | [], _ => true
  | (name, v) :: ms, ns =>
      (match Members.get? ns name with
        | some w => v.equal w
        | none => false) && equalMembers ms ns
end

end Json

end SchemaSieve
