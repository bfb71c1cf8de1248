import SchemaSieve.Double.Rounding
import SchemaSieve.Json.Reader

/-!
# Reading numbers

The digits of a number are gathered into a significand below `2 ^ 64`; digits
that no longer fit are dropped, and those dropped before the point raise the
power of ten.  A number without point and exponent, no digit of which was
dropped, is an integer; every other one is a double.
-/

namespace SchemaSieve.Json.Reader

def gather (significand : Nat) : Bytes → Nat × Nat × Bytes
  | [] => (significand, 0, [])
  | b :: s =>
      let m := significand * 10 + digitOf b
      if isDigitByte b ∧ m < 0x10000000000000000 then
        let (m', n, rest) := gather m s
        (m', n + 1, rest)
      else (significand, 0, b :: s)

theorem gather_length_le (significand : Nat) (s : Bytes) :
    (gather significand s).2.2.length ≤ s.length := by
  induction s generalizing significand with
  | nil => simp [gather]
  | cons b s ih =>
      simp only [gather]
      split
      · exact Nat.le_succ_of_le (ih (significand * 10 + digitOf b))
      · simp

def gatherDigits (significand : Nat) : Reader (Nat × Nat) := fun s =>
  let g := gather significand s
  .ok ⟨(g.1, g.2.1), g.2.2, gather_length_le significand s⟩

/-! ## The value of a literal -/

/-- A literal whose digits are an integer.  A negative one below the signed
range is a double, and so is the negative zero. -/
def integerNumber (negative : Bool) (significand : Nat) : Option Number :=
  if negative ∧ (significand = 0 ∨ 0x8000000000000000 < significand) then
    Number.ofDouble? (Double.ofNat significand).neg
  else
    let n : Int := if negative then -(significand : Int) else significand
    if h : -0x8000000000000000 ≤ n ∧ n < 0x10000000000000000 then some (.integer n h) else none

def floatNumber (negative : Bool) (significand : Nat) (e : Int) : Option Number :=
  match (Double.ofNat significand).scaleByTen? e with
  | none => none
  | some x => Number.ofDouble? (if negative then x.neg else x)

def inRange (n : Option Number) : Reader Number :=
  match n with
  | some n => pure n
  | none => fail .numberOutOfRange

/-! ## Exponents -/

def greatestExponent : Nat := 2147483647

/-- Gather an exponent; nothing once it passes the greatest, in which case the
digit that did it is the last one taken. -/
def gatherExponent (e : Nat) : Bytes → Option Nat × Bytes
  | [] => (some e, [])
  | b :: s =>
      if isDigitByte b then
        let e' := e * 10 + digitOf b
        if e' ≤ greatestExponent then gatherExponent e' s else (none, s)
      else (some e, b :: s)

theorem gatherExponent_length_le (e : Nat) (s : Bytes) :
    (gatherExponent e s).2.length ≤ s.length := by
  induction s generalizing e with
  | nil => simp [gatherExponent]
  | cons b s ih =>
      simp only [gatherExponent]
      split
      · split
        · have := ih (e * 10 + digitOf b)
          simp only [List.length_cons]
          omega
        · simp
      · simp

def exponentDigits (e : Nat) : Reader (Option Nat) := fun s =>
  let g := gatherExponent e s
  .ok ⟨g.1, g.2, gatherExponent_length_le e s⟩

def exponentSign : Reader Bool := do
  match ← look with
  | some b =>
      if b = byte '-' then skip; pure true
      else if b = byte '+' then skip; pure false
      else pure false
  | none => pure false

def exponent (negative : Bool) (significand : Nat) (start : Int) : Reader Number := do
  let down ← exponentSign
  match ← next with
  | none => fail .endOfValue
  | some b =>
      if isDigitByte b then
        match ← exponentDigits (digitOf b) with
        | some e =>
            let e : Int := if down then start - e else start + e
            inRange (floatNumber negative significand e)
        | none =>
            if significand ≠ 0 ∧ !down then fail .numberOutOfRange
            else
              let _ ← dropDigits
              inRange (floatNumber negative 0 0)
      else fail .invalidNumber

def isExponentMark (b : UInt8) : Bool := b == byte 'e' || b == byte 'E'

def floatEnd (negative : Bool) (significand : Nat) (e : Int) : Reader Number := do
  match ← look with
  | some b =>
      if isExponentMark b then
        skip
        exponent negative significand e
      else inRange (floatNumber negative significand e)
  | none => inRange (floatNumber negative significand e)

/-! ## Numbers -/

/-- The digits after the point.  There has to be one, unless the significand was
already full. -/
def fraction (negative : Bool) (significand : Nat) (e : Int) : Reader Number := do
  let (significand, n) ← gatherDigits significand
  let e := e - n
  match ← look with
  | none => if n = 0 then failPast .endOfValue else floatEnd negative significand e
  | some b =>
      if isDigitByte b then
        let _ ← dropDigits
        floatEnd negative significand e
      else if n = 0 then failPast .invalidNumber
      else floatEnd negative significand e

/-- What follows the integer digits of a number, some of which were dropped if
`dropped` is not zero. -/
def afterInteger (negative : Bool) (significand dropped : Nat) : Reader Number := do
  let plain : Reader Number :=
    if dropped = 0 then inRange (integerNumber negative significand)
    else inRange (floatNumber negative significand dropped)
  match ← look with
  | none => plain
  | some b =>
      if b = byte '.' then
        skip
        fraction negative significand dropped
      else if isExponentMark b then
        skip
        exponent negative significand dropped
      else plain

def unsignedNumber (negative : Bool) : Reader Number := do
  match ← next with
  | none => fail .endOfValue
  | some b =>
      if b = byte '0' then
        match ← look with
        | some c => if isDigitByte c then failPast .invalidNumber else afterInteger negative 0 0
        | none => afterInteger negative 0 0
      else if isDigitByte b then
        let (significand, _) ← gatherDigits (digitOf b)
        let dropped ← dropDigits
        afterInteger negative significand dropped
      else fail .invalidNumber

def number : Reader Number := do
  if (← look) = some (byte '-') then
    skip
    unsignedNumber true
  else unsignedNumber false

/-! ## Skipped numbers -/

def skipExponent : Reader Unit := do
  let _ ← exponentSign
  match ← next with
  | some b =>
      if isDigitByte b then
        let _ ← dropDigits
      else fail .invalidNumber
  | none => fail .invalidNumber

def skipFloatEnd : Reader Unit := do
  match ← look with
  | some b =>
      if isExponentMark b then
        skip
        skipExponent
  | none => pure ()

def skipNumberFrom (b : UInt8) : Reader Unit := do
  if !isDigitByte b then fail .invalidNumber
  else
    if b = byte '0' then
      match ← look with
      | some c => if isDigitByte c then failPast .invalidNumber
      | none => pure ()
    else
      let _ ← dropDigits
    if (← look) = some (byte '.') then
      skip
      if (← dropDigits) = 0 then failPast .invalidNumber
    skipFloatEnd

def skipNegative : Reader Unit := do
  match ← next with
  | none => fail .invalidNumber
  | some b => skipNumberFrom b

end SchemaSieve.Json.Reader
