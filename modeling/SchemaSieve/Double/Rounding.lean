import SchemaSieve.Double.Basic

/-!
# Rounding to the nearest double

`ofRatio` rounds a quotient of naturals to the nearest double, a tie going to
the even significand, with overflow to infinity.  Integers, decimal numerals,
products and quotients of doubles are all rounded through it, so each of them
is rounded exactly once.
-/

namespace SchemaSieve.Double

def roundHalfEven (n d : Nat) : Nat :=
  let q := n / d
  let r := n % d
  if 2 * r < d then q
  else if d < 2 * r then q + 1
  else if q % 2 = 0 then q else q + 1

def floorLog2 (n d : Nat) : Int :=
  let k : Int := (n.log2 : Int) - d.log2
  if n <<< (-k).toNat < d <<< k.toNat then k - 1 else k

/-- The magnitude of the double nearest to `n / d`.  The last place is that of
a fifty-three bit significand, but never finer than `2 ^ -1074`; a significand
that rounds up to `2 ^ 53` carries into the exponent by itself. -/
def roundRatio (n d : Nat) : Nat :=
  if n = 0 then 0
  else
    let place : Int := max (floorLog2 n d - 52) (-1074)
    let m := roundHalfEven (n <<< (-place).toNat) (d <<< place.toNat)
    min ((place + 1074).toNat * 0x10000000000000 + m) infiniteMagnitude

def ofRatio (negative : Bool) (n d : Nat) : Double :=
  ofMagnitude negative (roundRatio n d)

def ofNat (n : Nat) : Double := ofRatio false n 1

def ofInt (i : Int) : Double := ofRatio (i < 0) i.natAbs 1

/-- The double nearest to `m · 10 ^ e`.  Since `8 ^ k ≤ 10 ^ k`, the two early
answers are the rounded values and spare an enormous power. -/
def ofDecimal (negative : Bool) (m : Nat) (e : Int) : Double :=
  if m = 0 then zero negative
  else if 0 ≤ e then
    if 1100 ≤ 3 * e then infinity negative
    else ofRatio negative (m * Nat.pow 10 e.toNat) 1
  else
    if (m.log2 : Int) + 1101 ≤ -(3 * e) then zero negative
    else ofRatio negative m (Nat.pow 10 (-e).toNat)

def mul (x y : Double) : Double :=
  ofRatio (x.negative != y.negative) (x.ratio.1 * y.ratio.1) (x.ratio.2 * y.ratio.2)

def div (x y : Double) : Double :=
  ofRatio (x.negative != y.negative) (x.ratio.1 * y.ratio.2) (x.ratio.2 * y.ratio.1)

/-! ## Scaling by powers of ten

Number literals of documents are not rounded once.  Their significand is rounded
to a double first, and that double is then multiplied or divided by a rounded
power of ten, so the result may differ from the nearest double in the last
place.
-/

def powerOfTen (k : Nat) : Double := ofNat (Nat.pow 10 k)

/-- `x · 10 ^ e` for a finite `x`, in steps of at most `10 ^ 308`; nothing when
it leaves the finite range. -/
def scaleByTen? (x : Double) (e : Int) : Option Double :=
  if e < -308 then
    if x.isZero then some x else scaleByTen? (x.div (powerOfTen 308)) (e + 308)
  else if e < 0 then some (x.div (powerOfTen (-e).toNat))
  else if e ≤ 308 then
    let y := x.mul (powerOfTen e.toNat)
    if y.isFinite then some y else none
  else if x.isZero then some x
  else none
termination_by (-e).toNat

end SchemaSieve.Double
