import SchemaSieve.Decimal.Numeral
import SchemaSieve.Double.Rounding
import SchemaSieve.Value.Basic

/-!
# Reading values as numbers

Numbers come from native numbers and from strings.  A double or a string counts
as an integer only if it is one exactly; strings are rounded once, to the
nearest double.
-/

namespace SchemaSieve.Coercion

def signed? (n : Int) : Option Int64 :=
  if -0x8000000000000000 ≤ n ∧ n < 0x8000000000000000 then some (.ofInt n) else none

def integral? (x : Double) : Option Int64 := x.integral?.bind signed?

def nearest (n : Decimal.Numeral) : Double :=
  .ofDecimal n.negative n.significand n.exponent

/-- The integer of a numeric string: its digits if they are one in range, else
the double nearest to it, if that is one. -/
def integerOfText? (s : String) : Option Int64 :=
  match Decimal.Numeral.read? s.toList with
  | none => none
  | some n =>
      match (Decimal.readInt? s.toList).bind signed? with
      | some i => some i
      | none => integral? (nearest n)

def toInteger? : Value → Option Int64
  | .integer i => some i
  | .float x => integral? x
  | .string s => integerOfText? s
  | _ => none

/-- An exact unsigned integer, native or as digits. -/
def toUnsigned? : Value → Option UInt64
  | .unsigned u => some u
  | .string s =>
      match Decimal.readUnsigned? s.toList with
      | some n => if n < 0x10000000000000000 then some (.ofNat n) else none
      | none => none
  | _ => none

def finite? (x : Double) : Option Double := if x.isFinite then some x else none

def toFloat? : Value → Option Double
  | .integer i => some (.ofInt i.toInt)
  | .unsigned u => some (.ofNat u.toNat)
  | .float x => finite? x
  | .string s =>
      match Decimal.Numeral.read? s.toList with
      | some n => finite? (nearest n)
      | none => none
  | _ => none

end SchemaSieve.Coercion
