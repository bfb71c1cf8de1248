import SchemaSieve.Decimal.Numeral
import SchemaSieve.Double.Rounding
import SchemaSieve.Toml.Reader

/-!
# Values and bare scalars

Booleans, integers, floating point numbers, dates and times are written without
quotes and told apart by their form alone.  `ofChars?` takes the whole run of
characters.  Digits may be grouped by single underscores between them.
-/

namespace SchemaSieve

/-- What a configuration text can hold.  Nothing depends on a date or time but its presence, so
`moment` keeps no more. -/
inductive Toml where
  | string (s : String)
  | integer (i : Int64)
  | float (x : Double)
  | boolean (b : Bool)
  | moment
  | array (items : List Toml)
  | table (fields : List (String × Toml))
deriving Inhabited

end SchemaSieve

namespace SchemaSieve.Toml

/-! ## Numbers -/

def ungroup? (isDigit : Char → Bool) : List Char → Option (List Char)
  | [] => none
  | [c] => if isDigit c then some [c] else none
  | c :: '_' :: cs => if isDigit c then (ungroup? isDigit cs).map (c :: ·) else none
  | c :: cs => if isDigit c then (ungroup? isDigit cs).map (c :: ·) else none

def wholeDigits? (cs : List Char) : Option (List Char) :=
  match ungroup? Decimal.isDigit cs with
  | some ['0'] => some ['0']
  | some ('0' :: _) => none
  | ds => ds

def inBase? (base : Nat) (cs : List Char) : Option Nat := do
  let ds ← ungroup? (fun c => (hexDigit? c).any (· < base)) cs
  let values ← ds.mapM hexDigit?
  some (values.foldl (fun n d => base * n + d) 0)

def magnitude? : List Char → Option Nat
  | '0' :: 'x' :: cs => inBase? 16 cs
  | '0' :: 'o' :: cs => inBase? 8 cs
  | '0' :: 'b' :: cs => inBase? 2 cs
  | _ => none

def integer? (cs : List Char) : Option Int64 := do
  let n ←
    match magnitude? cs with
    | some n => some (n : Int)
    | none =>
        let (negative, ds) := Decimal.splitSign cs
        let n ← (wholeDigits? ds).bind Decimal.readNat?
        some (if negative then -(n : Int) else n)
  if -0x8000000000000000 ≤ n ∧ n < 0x8000000000000000 then some (.ofInt n) else none

def exponent? : List Char → Option Int
  | [] => some 0
  | c :: cs => do
      if c ≠ 'e' ∧ c ≠ 'E' then none
      let (negative, ds) := Decimal.splitSign cs
      let n ← (ungroup? Decimal.isDigit ds).bind Decimal.readNat?
      some (if negative then -(n : Int) else n)

def isGroupedDigit (c : Char) : Bool := Decimal.isDigit c || c = '_'

def fraction? : List Char → Option (List Char × List Char)
  | '.' :: cs =>
      (ungroup? Decimal.isDigit (cs.takeWhile isGroupedDigit)).map
        (·, cs.dropWhile isGroupedDigit)
  | cs => some ([], cs)

/-- A floating point number, with a point or an exponent.  One that is too large
for a double is refused if it is positive. -/
def float? (cs : List Char) : Option Double := do
  let (negative, cs) := Decimal.splitSign cs
  if cs = "inf".toList then return .infinity negative
  if cs = "nan".toList then return .nan
  let whole ← wholeDigits? (cs.takeWhile isGroupedDigit)
  let tail := cs.dropWhile isGroupedDigit
  if tail = [] then none
  let (fraction, rest) ← fraction? tail
  let e ← exponent? rest
  let n ← Decimal.readNat? (whole ++ fraction)
  let x := Double.ofDecimal negative n (e - fraction.length)
  if x = .infinity false then none
  return x

/-! ## Dates and times -/

def field? (width low high : Nat) (cs : List Char) : Option Nat := do
  let n ← Decimal.readNat? cs
  if cs.length = width ∧ low ≤ n ∧ n ≤ high then some n else none

def isLeapYear (year : Nat) : Bool := year % 4 = 0 && (year % 100 ≠ 0 || year % 400 = 0)

def daysIn (year month : Nat) : Nat :=
  if month = 2 then if isLeapYear year then 29 else 28
  else if month = 4 ∨ month = 6 ∨ month = 9 ∨ month = 11 then 30
  else 31

def isDate (cs : List Char) : Bool :=
  match cs.splitOn '-' with
  | [y, m, d] =>
      match field? 4 0 9999 y, field? 2 1 12 m with
      | some year, some month => (field? 2 1 (daysIn year month) d).isSome
      | _, _ => false
  | _ => false

def isSeconds (cs : List Char) : Bool :=
  match cs.splitOn '.' with
  | [s] => (field? 2 0 60 s).isSome
  | [s, digits] => (field? 2 0 60 s).isSome && (Decimal.readNat? digits).isSome
  | _ => false

def isTime (cs : List Char) : Bool :=
  match cs.splitOn ':' with
  | [h, m, s] => (field? 2 0 23 h).isSome && (field? 2 0 59 m).isSome && isSeconds s
  | _ => false

def isOffset (cs : List Char) : Bool :=
  match cs.splitOn ':' with
  | [h, m] => (field? 2 0 23 h).isSome && (field? 2 0 59 m).isSome
  | _ => false

def isZonedTime (cs : List Char) : Bool :=
  let time := cs.takeWhile fun c => Decimal.isDigit c || c = ':' || c = '.'
  isTime time &&
    match cs.drop time.length with
    | [] | ['Z'] | ['z'] => true
    | '+' :: cs | '-' :: cs => isOffset cs
    | _ => false

def isMoment (cs : List Char) : Bool :=
  isTime cs || isDate cs ||
    isDate (cs.take 10) &&
      match cs.drop 10 with
      | c :: time => (c = 'T' || c = 't' || c = ' ') && isZonedTime time
      | [] => false

/-! ## Scalars -/

def isBare (c : Char) : Bool :=
  c.isAlphanum || c = '_' || c = '+' || c = '-' || c = '.' || c = ':'

def ofChars? (cs : List Char) : Option Toml :=
  if cs = "true".toList then some (.boolean true)
  else if cs = "false".toList then some (.boolean false)
  else if isMoment cs then some .moment
  else
    match integer? cs with
    | some i => some (.integer i)
    | none => (float? cs).map .float

end SchemaSieve.Toml
