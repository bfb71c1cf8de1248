/-!
# Readers of characters

A reader takes a value off the front of a list of characters, or fails.  What it
leaves is never longer than what it was given, so `repeating` ends as soon as a
step takes nothing.
-/

namespace SchemaSieve.Toml

structure Taken (α : Type) (s : List Char) where
  value : α
  rest : List Char
  le : rest.length ≤ s.length

def Reader (α : Type) := (s : List Char) → Option (Taken α s)

namespace Reader

variable {α : Type}

instance : Monad Reader where
  pure a := fun s => some ⟨a, s, Nat.le_refl _⟩
  bind x f := fun s =>
    match x s with
    | none => none
    | some r =>
        match f r.value r.rest with
        | none => none
        | some q => some ⟨q.value, q.rest, Nat.le_trans q.le r.le⟩

def run (x : Reader α) (s : List Char) : Option α := (x s).map Taken.value

def fail : Reader α := fun _ => none

def peek (f : List Char → α) : Reader α := fun s => some ⟨f s, s, Nat.le_refl _⟩

def look : Reader (Option Char) := peek List.head?

def skip : Reader Unit := fun s => some ⟨(), s.tail, by simp⟩

def next : Reader Char
  | [] => none
  | c :: rest => some ⟨c, rest, by simp⟩

def word : List Char → Reader Unit
  | [] => pure ()
  | c :: cs => do
      if (← next) = c then word cs else fail

def startsWith (cs : List Char) : Reader Bool := peek cs.isPrefixOf

def takeWhile (p : Char → Bool) : Reader (List Char) := fun s =>
  some ⟨s.takeWhile p, s.dropWhile p, (List.dropWhile_suffix _).length_le⟩

/-- The values of a step that is taken until it gives none.  A step that gives
a value has to take something. -/
def repeating (step : Reader (Option α)) (s : List Char) : Option (Taken (List α) s) :=
  match step s with
  | none => none
  | some ⟨none, rest, le⟩ => some ⟨[], rest, le⟩
  | some ⟨some a, rest, le⟩ =>
      if rest.length < s.length then
        match repeating step rest with
        | none => none
        | some q => some ⟨a :: q.value, q.rest, Nat.le_trans q.le le⟩
      else none
termination_by s.length

end Reader

/-! ## Characters -/

def isBlank (c : Char) : Bool := c = ' ' || c = '\t'

def isText (c : Char) : Bool := c = '\t' || (' ' ≤ c && c ≠ '\x7f')

def hexDigit? (c : Char) : Option Nat :=
  if '0' ≤ c ∧ c ≤ '9' then some (c.toNat - '0'.toNat)
  else if 'a' ≤ c ∧ c ≤ 'f' then some (c.toNat - 'a'.toNat + 10)
  else if 'A' ≤ c ∧ c ≤ 'F' then some (c.toNat - 'A'.toNat + 10)
  else none

/-! ## Blanks, comments and ends of lines -/

namespace Reader

def blanks : Reader Unit := do
  let _ ← takeWhile isBlank
  pure ()

def newline : Reader Unit := do
  match ← next with
  | '\n' => pure ()
  | '\r' => word ['\n']
  | _ => fail

def comment : Reader Unit := do
  word ['#']
  let _ ← takeWhile isText
  pure ()

def endOfLine : Reader Unit := do
  blanks
  if (← look) = some '#' then comment
  if (← look).isSome then newline

def gap : Reader Unit := do
  let _ ← repeating do
    blanks
    match ← look with
    | some '#' =>
        comment
        newline
        pure (some ())
    | some '\n' | some '\r' =>
        newline
        pure (some ())
    | _ => pure none
  pure ()

end Reader

end SchemaSieve.Toml
