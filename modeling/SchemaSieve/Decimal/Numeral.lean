import SchemaSieve.Decimal.Digits

/-!
# Decimal numerals in text

A numeral is a sign, digits with an optional point and an optional power of
ten, in ASCII and with nothing around it:

    [+-] (digits [. [digits]] | . digits) [(e|E) [+-] digits]

Integers have two narrower forms of their own: signed digits, and digits after
at most a plus sign.
-/

namespace SchemaSieve.Decimal

/-- The number `±significand · 10 ^ exponent`. -/
structure Numeral where
  negative : Bool
  significand : Nat
  exponent : Int
deriving DecidableEq

def splitSign : List Char → Bool × List Char
  | '-' :: cs => (true, cs)
  | '+' :: cs => (false, cs)
  | cs => (false, cs)

def splitFraction : List Char → List Char × List Char
  | '.' :: cs => (cs.takeWhile isDigit, cs.dropWhile isDigit)
  | cs => ([], cs)

def readInt? (cs : List Char) : Option Int :=
  let (negative, ds) := splitSign cs
  (readNat? ds).map fun n => if negative then -(n : Int) else n

def readUnsigned? : List Char → Option Nat
  | '+' :: cs => readNat? cs
  | cs => readNat? cs

def readExponent? : List Char → Option Int
  | [] => some 0
  | c :: cs => if c = 'e' ∨ c = 'E' then readInt? cs else none

def Numeral.read? (cs : List Char) : Option Numeral :=
  let (negative, cs) := splitSign cs
  let whole := cs.takeWhile isDigit
  let (fraction, rest) := splitFraction (cs.dropWhile isDigit)
  match readNat? (whole ++ fraction), readExponent? rest with
  | some significand, some e => some ⟨negative, significand, e - fraction.length⟩
  | _, _ => none

def isNumeric (s : String) : Bool := (Numeral.read? s.toList).isSome

end SchemaSieve.Decimal
