/-!
# Decimal digits

Numbers are written in base ten with the most significant digit first and no
leading zero.  `ofDigits_digits` says that the digits of a number denote it.
-/

namespace SchemaSieve.Decimal

def digits (n : Nat) : List Nat :=
  if n < 10 then [n] else digits (n / 10) ++ [n % 10]
termination_by n

def ofDigits (ds : List Nat) : Nat :=
  ds.foldl (fun n d => 10 * n + d) 0

theorem ofDigits_concat (ds : List Nat) (d : Nat) :
    ofDigits (ds ++ [d]) = 10 * ofDigits ds + d := by
  simp [ofDigits]

theorem ofDigits_digits (n : Nat) : ofDigits (digits n) = n := by
  induction n using digits.induct with
  | case1 n h => rw [digits]; simp [h, ofDigits]
  | case2 n h ih =>
      rw [digits, if_neg h, ofDigits_concat, ih]
      omega

theorem digits_ne_nil (n : Nat) : digits n ≠ [] := by
  rw [digits]
  split <;> simp

/-! ## Characters -/

def digitChar (d : Nat) : Char := Char.ofNat (48 + d)

def charDigit? (c : Char) : Option Nat :=
  if '0' ≤ c ∧ c ≤ '9' then some (c.toNat - 48) else none

def isDigit (c : Char) : Bool := decide ('0' ≤ c ∧ c ≤ '9')

def natChars (n : Nat) : List Char := (digits n).map digitChar

def intChars : Int → List Char
  | .ofNat n => natChars n
  | .negSucc n => '-' :: natChars (n + 1)

def natText (n : Nat) : String := String.ofList (natChars n)

def intText (i : Int) : String := String.ofList (intChars i)

/-- The number written by a run of digits; nothing if the run is empty or
holds any other character. -/
def readNat? (cs : List Char) : Option Nat :=
  if cs = [] then none else (cs.mapM charDigit?).map ofDigits

end SchemaSieve.Decimal
