/-!
# Binary double-precision numbers

A `Double` is its 64-bit word: a sign bit, eleven exponent bits and fifty-two
fraction bits.  Everything here is exact arithmetic on that word.  A finite
double is `±significand · 2 ^ exponent`; `ratio` gives that magnitude as a
quotient of naturals.
-/

namespace SchemaSieve

structure Double where
  bits : UInt64
deriving DecidableEq, Inhabited

namespace Double

/-! ## Fields of the word -/

def negative (x : Double) : Bool := 0x8000000000000000 ≤ x.bits.toNat

/-- The word without its sign bit.  Among finite doubles of one sign the
magnitude orders them as their values do. -/
def magnitude (x : Double) : Nat := x.bits.toNat % 0x8000000000000000

def exponentField (x : Double) : Nat := x.magnitude / 0x10000000000000

def fraction (x : Double) : Nat := x.magnitude % 0x10000000000000

/-- The magnitude of the infinities; the doubles above it are not numbers. -/
def infiniteMagnitude : Nat := 2047 * 0x10000000000000

def isFinite (x : Double) : Bool := x.magnitude < infiniteMagnitude

def isNaN (x : Double) : Bool := infiniteMagnitude < x.magnitude

def isZero (x : Double) : Bool := x.magnitude = 0

def significand (x : Double) : Nat :=
  if x.exponentField = 0 then x.fraction else 0x10000000000000 + x.fraction

def exponent (x : Double) : Int := (max x.exponentField 1 : Nat) - 1075

/-! ## Building words -/

def ofMagnitude (negative : Bool) (m : Nat) : Double :=
  ⟨.ofNat (if negative then 0x8000000000000000 + m else m)⟩

def zero (negative : Bool) : Double := ofMagnitude negative 0

def infinity (negative : Bool) : Double := ofMagnitude negative infiniteMagnitude

def nan : Double := ofMagnitude false (infiniteMagnitude + 0x8000000000000)

def neg (x : Double) : Double := ofMagnitude (!x.negative) x.magnitude

/-! ## Exact value -/

def scaled (m : Nat) (e : Int) : Nat × Nat :=
  (m <<< e.toNat, 1 <<< (-e).toNat)

def ratio (x : Double) : Nat × Nat := scaled x.significand x.exponent

def integral? (x : Double) : Option Int :=
  if x.isFinite ∧ x.ratio.1 % x.ratio.2 = 0 then
    let n := x.ratio.1 / x.ratio.2
    some (if x.negative then -(n : Int) else n)
  else
    none

/-- Total equality: all doubles that are not numbers are one, and so are the
two zeros. -/
def equal (x y : Double) : Bool :=
  if x.isNaN then y.isNaN
  else x = y || (x.isZero && y.isZero)

end Double

end SchemaSieve
