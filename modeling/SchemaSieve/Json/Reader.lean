import SchemaSieve.Json.Fault

/-!
# Readers of bytes

A reader takes a value off the front of a list of bytes, or reports a fault.
Its result carries the bound that nothing was added to the input, so that loops
over readers end by the length of what is left.

A fault is reported in one of two places: before the bytes still to be read, or
past the next one when that byte is the offending one.
-/

namespace SchemaSieve.Json

structure Read (α : Type) (s : Bytes) where
  value : α
  rest : Bytes
  le : rest.length ≤ s.length

def Read.up {α : Type} {s t : Bytes} (h : t.length ≤ s.length) (r : Read α t) : Read α s :=
  ⟨r.value, r.rest, Nat.le_trans r.le h⟩

def Reader (α : Type) := (s : Bytes) → Except Fault (Read α s)

namespace Reader

variable {α β : Type}

instance : Monad Reader where
  pure a := fun s => .ok ⟨a, s, Nat.le_refl _⟩
  bind x f := fun s =>
    match x s with
    | .error e => .error e
    | .ok r =>
        match f r.value r.rest with
        | .error e => .error e
        | .ok q => .ok ⟨q.value, q.rest, Nat.le_trans q.le r.le⟩

def run (x : Reader α) (s : Bytes) : Except Fault α :=
  (x s).map Read.value

/-! ## Single bytes -/

def fail (reason : Reason) : Reader α := fun s => .error ⟨reason, [], s, true⟩

/-- A fault past the next byte; at the end of the text, there. -/
def failPast (reason : Reason) : Reader α := fun s => .error ⟨reason, [], s.tail, true⟩

/-- A fault of an object as a whole, to be placed where the object closes. -/
def failUnplaced (reason : Reason) : Reader α := fun s => .error ⟨reason, [], s, false⟩

def look : Reader (Option UInt8) := fun s => .ok ⟨s.head?, s, Nat.le_refl _⟩

def skip : Reader Unit := fun s => .ok ⟨(), s.tail, by simp⟩

def next : Reader (Option UInt8) := do
  let b ← look
  skip
  pure b

def within (segment : Segment) (x : Reader α) : Reader α := fun s =>
  match x s with
  | .error e => .error { e with path := segment :: e.path }
  | .ok r => .ok r

/-- Place the faults of `x` that are not placed yet, after the closing that
follows the bytes they were raised at. -/
def placing (close : Bytes → Bytes) (x : Reader α) : Reader α := fun s =>
  match x s with
  | .error e =>
      .error (if e.placed then e else { e with unread := close e.unread, placed := true })
  | .ok r => .ok r

end Reader

/-! ## Blanks, words and digits -/

def isSpace (b : UInt8) : Bool := b == 32 || b == 10 || b == 9 || b == 13

def skipSpace (s : Bytes) : Bytes := s.dropWhile isSpace

theorem skipSpace_length_le (s : Bytes) : (skipSpace s).length ≤ s.length :=
  (List.dropWhile_suffix _).length_le

theorem length_lt_of_skipSpace {s rest : Bytes} {b : UInt8} (h : skipSpace s = b :: rest) :
    rest.length < s.length := by
  have hle := skipSpace_length_le s
  rw [h, List.length_cons] at hle
  exact hle

def byte (c : Char) : UInt8 := c.toUInt8

def isDigitByte (b : UInt8) : Bool := byte '0' ≤ b && b ≤ byte '9'

def digitOf (b : UInt8) : Nat := b.toNat - 48

namespace Reader

variable {α : Type}

def space : Reader Unit := fun s => .ok ⟨(), skipSpace s, skipSpace_length_le s⟩

def lookPastSpace : Reader (Option UInt8) := do
  space
  look

def word : Bytes → Reader Unit
  | [] => pure ()
  | b :: bs => do
      match ← next with
      | none => fail .endOfValue
      | some c => if c = b then word bs else fail .expectedWord

def dropDigits : Reader Nat := fun s =>
  .ok ⟨(s.takeWhile isDigitByte).length, s.dropWhile isDigitByte,
    (List.dropWhile_suffix _).length_le⟩

end Reader

end SchemaSieve.Json
