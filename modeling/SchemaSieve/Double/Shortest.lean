import SchemaSieve.Decimal.Digits
import SchemaSieve.Double.Basic

/-!
# Shortest decimal digits of a double

The reals that round to a finite double `m · 2 ^ q` form an interval around it,
whose ends belong to it when `m` is even.  On each decimal grid the only
candidates are the two neighbours of the double; the first grid, from one digit
on, that has one inside the interval gives the digits.  Of two candidates the
nearer wins, and an exact tie is left to the caller.
-/

namespace SchemaSieve.Double

inductive Tie where
  | even
  | up
deriving DecidableEq

/-- Digits `d₁d₂…` with an exponent: the number `d₁.d₂… · 10 ^ exponent`. -/
structure Digits where
  digits : List Nat
  exponent : Int
deriving DecidableEq

def floorLog10 (n d : Nat) : Int :=
  if d ≤ n then ((Decimal.digits (n / d)).length : Int) - 1
  else
    let k := (Decimal.digits (d / n)).length
    if d = n * Nat.pow 10 (k - 1) then 1 - (k : Int) else -(k : Int)

/-- The interval of reals that round to a double, in units of a quarter of its
last place: lower end, the double itself, upper end.  Below a power of two the
spacing is half as wide. -/
def quarters (x : Double) : Nat × Nat × Nat :=
  let m := x.significand
  let below := if m = 0x10000000000000 ∧ 1 < x.exponentField then 1 else 2
  (4 * m - below, 4 * m, 4 * m + 2)

def trimZeros (ds : List Nat) : List Nat :=
  match (ds.reverse.dropWhile (· = 0)).reverse with
  | [] => [0]
  | ds => ds

def Digits.ofScaled (c : Nat) (p : Int) : Digits :=
  let ds := Decimal.digits c
  ⟨trimZeros ds, p + ds.length - 1⟩

/-- The neighbours of a double on the grid of multiples of `10 ^ p`, less those
outside its interval; of two the nearer. -/
def onGrid (tie : Tie) (x : Double) (p : Int) : Option Digits :=
  let (low, mid, high) := x.quarters
  let (a, b) := scaled 1 (x.exponent - 2)
  let unit := Nat.pow 10 p.toNat * b
  let grain := a * Nat.pow 10 (-p).toNat
  let inside (c : Nat) : Bool :=
    if x.significand % 2 = 0 then low * grain ≤ c * unit ∧ c * unit ≤ high * grain
    else low * grain < c * unit ∧ c * unit < high * grain
  let c := mid * grain / unit
  let down := mid * grain - c * unit
  let up := (c + 1) * unit - mid * grain
  let upward := up < down || (up = down && (tie = .up || c % 2 = 1))
  match inside c, inside (c + 1) with
  | true, true => some (.ofScaled (if upward then c + 1 else c) p)
  | true, false => some (.ofScaled c p)
  | false, true => some (.ofScaled (c + 1) p)
  | false, false => none

def shortest (tie : Tie) (x : Double) : Digits :=
  if x.isZero then ⟨[0], 0⟩
  else
    let s := floorLog10 x.ratio.1 x.ratio.2
    ((List.range 17).findSome? fun (k : Nat) => onGrid tie x (s - k)).getD ⟨[0], 0⟩

end SchemaSieve.Double
