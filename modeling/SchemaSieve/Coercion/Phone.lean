import SchemaSieve.Decimal.Digits
import SchemaSieve.Value.Basic

/-!
# Phone numbers

A number has a trunk digit 7 or 8, with an optional plus sign before it, then a
three-digit area code, bare or in parentheses, and groups of three, two and two
digits.  One space or dash may stand before the area code and before each group.
The canonical form is `7` and the ten digits after the trunk digit.
-/

namespace SchemaSieve.Coercion.Phone

def skipGap : List Char → List Char
  | ' ' :: cs => cs
  | '-' :: cs => cs
  | cs => cs

def group? : Nat → List Char → Option (List Char × List Char)
  | 0, cs => some ([], cs)
  | n + 1, c :: cs =>
      if Decimal.isDigit c then (group? n cs).map fun (ds, rest) => (c :: ds, rest) else none
  | _ + 1, [] => none

def area? : List Char → Option (List Char × List Char)
  | '(' :: cs =>
      match group? 3 cs with
      | some (ds, ')' :: rest) => some (ds, rest)
      | _ => none
  | cs => group? 3 cs

def subscriber? (cs : List Char) : Option (List Char) := do
  let (area, cs) ← area? (skipGap cs)
  let (first, cs) ← group? 3 (skipGap cs)
  let (second, cs) ← group? 2 (skipGap cs)
  let (third, cs) ← group? 2 (skipGap cs)
  if cs = [] then some (area ++ first ++ second ++ third) else none

def afterTrunk? (cs : List Char) : Option (List Char) :=
  let cs := match cs with
    | '+' :: cs => cs
    | cs => cs
  match cs with
  | '7' :: cs => some cs
  | '8' :: cs => some cs
  | _ => none

def canonical? (s : String) : Option String :=
  (afterTrunk? s.toList).bind subscriber? |>.map fun ds => String.ofList ('7' :: ds)

def isPhone (s : String) : Bool := (canonical? s).isSome

def toPhone? : Value → Option String
  | .string s => canonical? s
  | .integer i => canonical? (Decimal.intText i.toInt)
  | _ => none

end SchemaSieve.Coercion.Phone
