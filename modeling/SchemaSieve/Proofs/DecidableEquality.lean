import Mathlib.Control.Monad.Basic
import SchemaSieve.Sanitizer

/-!
# Decidable equality

Trees, values and types nest in lists of members, so their equality is decided by walks of their
own.  With it the kernel finds what the definitions give at a fixed input.
-/

namespace SchemaSieve

namespace Json

mutual
def beq : Json → Json → Bool
  | .null, .null => true
  | .bool a, .bool b => a = b
  | .number a, .number b => a = b
  | .string a, .string b => a = b
  | .array xs, .array ys => beqItems xs ys
  | .object ms, .object ns => beqMembers ms ns
  | _, _ => false

def beqItems : List Json → List Json → Bool
  | [], [] => true
  | x :: xs, y :: ys => beq x y && beqItems xs ys
  | _, _ => false

def beqMembers : List (String × Json) → List (String × Json) → Bool
  | [], [] => true
  | (a, x) :: ms, (b, y) :: ns => a = b && beq x y && beqMembers ms ns
  | _, _ => false
end

mutual
theorem beq_iff (x y : Json) : x.beq y = true ↔ x = y := by
  cases x <;> cases y <;> simp [beq, beqItems_iff, beqMembers_iff]

theorem beqItems_iff (xs ys : List Json) : beqItems xs ys = true ↔ xs = ys := by
  cases xs <;> cases ys <;> simp [beqItems, beq_iff, beqItems_iff]

theorem beqMembers_iff (ms ns : List (String × Json)) : beqMembers ms ns = true ↔ ms = ns := by
  cases ms <;> cases ns <;> simp [beqMembers, beq_iff, beqMembers_iff, Prod.ext_iff]
end

instance : DecidableEq Json := fun x y => decidable_of_iff _ (beq_iff x y)

end Json

namespace Value

mutual
def beq : Value → Value → Bool
  | .null, .null => true
  | .bool a, .bool b => a = b
  | .integer a, .integer b => a = b
  | .unsigned a, .unsigned b => a = b
  | .float a, .float b => a = b
  | .string a, .string b => a = b
  | .sequence xs, .sequence ys => beqItems xs ys
  | .mapping ms, .mapping ns => beqMembers ms ns
  | _, _ => false

def beqItems : List Value → List Value → Bool
  | [], [] => true
  | x :: xs, y :: ys => beq x y && beqItems xs ys
  | _, _ => false

def beqMembers : List (String × Value) → List (String × Value) → Bool
  | [], [] => true
  | (a, x) :: ms, (b, y) :: ns => a = b && beq x y && beqMembers ms ns
  | _, _ => false
end

mutual
theorem beq_iff (x y : Value) : x.beq y = true ↔ x = y := by
  cases x <;> cases y <;> simp [beq, beqItems_iff, beqMembers_iff]

theorem beqItems_iff (xs ys : List Value) : beqItems xs ys = true ↔ xs = ys := by
  cases xs <;> cases ys <;> simp [beqItems, beq_iff, beqItems_iff]

theorem beqMembers_iff (ms ns : List (String × Value)) : beqMembers ms ns = true ↔ ms = ns := by
  cases ms <;> cases ns <;> simp [beqMembers, beq_iff, beqMembers_iff, Prod.ext_iff]
end

instance : DecidableEq Value := fun x y => decidable_of_iff _ (beq_iff x y)

end Value

namespace Descriptor

mutual
def beq : Descriptor → Descriptor → Bool
  | .scalar a, .scalar b => a = b
  | .map fs, .map gs => beqFields fs gs
  | .array a, .array b => beq a b
  | .malformed d a, .malformed e b => d = e && decide (a = b)
  | _, _ => false

def beqFields : List (String × Descriptor) → List (String × Descriptor) → Bool
  | [], [] => true
  | (a, x) :: fs, (b, y) :: gs => a = b && beq x y && beqFields fs gs
  | _, _ => false
end

mutual
theorem beq_iff (x y : Descriptor) : x.beq y = true ↔ x = y := by
  cases x <;> cases y <;> simp [beq, beq_iff, beqFields_iff]

theorem beqFields_iff (fs gs : List (String × Descriptor)) :
    beqFields fs gs = true ↔ fs = gs := by
  cases fs <;> cases gs <;> simp [beqFields, beq_iff, beqFields_iff, Prod.ext_iff]
end

instance : DecidableEq Descriptor := fun x y => decidable_of_iff _ (beq_iff x y)

end Descriptor

deriving instance DecidableEq for Problem, Issue, Failure, Sanitized, Json.Found, Json.Reason,
  Json.Fault, Refusal

instance decidableEqOk {ε α : Type} [DecidableEq α] (x : Except ε α) (a : α) : Decidable (x = .ok a) :=
  match x with
  | .ok b => decidable_of_iff (b = a) (by simp)
  | .error _ => isFalse (by simp)

end SchemaSieve
