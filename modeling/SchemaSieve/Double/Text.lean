import SchemaSieve.Double.Shortest

/-!
# Texts of doubles

Two layouts of the shortest digits: the number text of a document, which keeps
apart integers and floats and turns to an exponent at both ends of the scale,
and the plain text, which is always positional.
-/

namespace SchemaSieve.Double

structure Layout where
  /-- The exponents written positionally; all others get an exponent mark. -/
  positional : Int → Bool
  wholeEnding : List Char
  tie : Tie

/-- Numbers of a document: positional from `0.00001` up to sixteen integral
digits, a point in every float, and a sign in every exponent. -/
def documentLayout : Layout where
  positional e := -5 ≤ e ∧ e < 16
  wholeEnding := ['.', '0']
  tie := .even

def plainLayout : Layout where
  positional _ := true
  wholeEnding := []
  tie := .up

private def digitChars (ds : List Nat) : List Char := ds.map Decimal.digitChar

/-- Positional notation: the point stands after `exponent + 1` digits. -/
def Layout.place (l : Layout) (d : Digits) : List Char :=
  if d.exponent < 0 then
    '0' :: '.' :: List.replicate (-d.exponent - 1).toNat '0' ++ digitChars d.digits
  else
    let n := (d.exponent + 1).toNat
    let whole := digitChars (d.digits.take n) ++ List.replicate (n - d.digits.length) '0'
    match d.digits.drop n with
    | [] => whole ++ l.wholeEnding
    | rest => whole ++ '.' :: digitChars rest

def Digits.scientific (d : Digits) : List Char :=
  let mark := if d.exponent < 0 then '-' else '+'
  let tail := 'e' :: mark :: Decimal.natChars d.exponent.natAbs
  match d.digits with
  | [] => tail
  | [x] => Decimal.digitChar x :: tail
  | x :: rest => Decimal.digitChar x :: '.' :: digitChars rest ++ tail

def Layout.chars (l : Layout) (x : Double) : List Char :=
  let d := x.shortest l.tie
  let body := if l.positional d.exponent then l.place d else d.scientific
  if x.negative then '-' :: body else body

def documentChars (x : Double) : List Char := documentLayout.chars x

def plainText (x : Double) : String :=
  if x.isNaN then "NaN"
  else if x.isFinite then String.ofList (plainLayout.chars x)
  else if x.negative then "-inf" else "inf"

end SchemaSieve.Double
