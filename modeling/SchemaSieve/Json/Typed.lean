import SchemaSieve.Json.Document
import SchemaSieve.Json.Skipping

/-!
# Reading typed data

Readers for data of a known type.  Where a value of another type stands, it is
read as far as it is a scalar and then reported; so a malformed scalar reports
its own fault first.  A container of the wrong type is reported at its bracket.
-/

namespace SchemaSieve.Json.Reader

variable {α σ : Type}

def mismatch (expected : String) (b : UInt8) : Reader α :=
  let wrong (found : Found) : Reader α := fail (.invalidType found expected)
  if b = byte 'n' then do
    skip
    word [byte 'u', byte 'l', byte 'l']
    wrong .null
  else if b = byte 't' then do
    skip
    word [byte 'r', byte 'u', byte 'e']
    wrong (.boolean true)
  else if b = byte 'f' then do
    skip
    word [byte 'a', byte 'l', byte 's', byte 'e']
    wrong (.boolean false)
  else if b = byte '-' || isDigitByte b then do
    let n ← number
    wrong (.number n)
  else if b = byte '"' then do
    skip
    let s ← string
    wrong (.string s)
  else if b = byte '[' then wrong .sequence
  else if b = byte '{' then wrong .map
  else failPast .expectedValue

def lookAtValue (read : UInt8 → Reader α) : Reader α := do
  match ← lookPastSpace with
  | none => failPast .endOfValue
  | some b => read b

/-! ## Scalars -/

def textValue (expected : String) : Reader String :=
  lookAtValue fun b =>
    if b = byte '"' then do
      skip
      string
    else mismatch expected b

def unitValue : Reader Unit :=
  lookAtValue fun b =>
    if b = byte 'n' then do
      skip
      word [byte 'u', byte 'l', byte 'l']
    else mismatch "unit" b

def optionalValue (x : Reader α) : Reader (Option α) := do
  if (← lookPastSpace) = some (byte 'n') then
    skip
    word [byte 'u', byte 'l', byte 'l']
    pure none
  else
    let a ← x
    pure (some a)

def sizeValue : Reader UInt64 :=
  lookAtValue fun b =>
    if b = byte '-' || isDigitByte b then do
      let n ← number
      match n with
      | .integer i _ =>
          if i < 0 then fail (.invalidValue (.number n) "usize") else pure (.ofNat i.toNat)
      | .float _ _ => fail (.invalidType (.number n) "usize")
    else mismatch "usize" b

/-! ## Containers -/

def listValue (containers : Nat) (item : Nat → Reader α) : Reader (List α) :=
  lookAtValue fun b =>
    if b = byte '[' then enter containers fun n => items (item n)
    else mismatch "a sequence" b

def mapValue (containers : Nat) (member : Nat → σ → String → Reader σ) (start : σ) : Reader σ :=
  lookAtValue fun b =>
    if b = byte '{' then enter containers fun n => members (member n) start
    else mismatch "a map" b

def closeOfObject (s : Bytes) : Bytes :=
  match skipSpace s with
  | [] => []
  | b :: rest => if b = byte '}' then rest else b :: rest

def closeOfList (s : Bytes) : Bytes :=
  match skipSpace s with
  | [] => []
  | b :: rest =>
      if b = byte ']' then rest
      else if b = byte ',' then skipSpace rest
      else b :: rest

/-- A record, written as an object or as the list of its fields.  Both readers
start after the bracket. -/
def recordValue (expected : String) (containers : Nat)
    (asObject asList : Nat → Reader α) : Reader α :=
  lookAtValue fun b =>
    if b = byte '{' then placing closeOfObject (enter containers asObject)
    else if b = byte '[' then
      placing closeOfList (enter containers fun n => do
        let a ← asList n
        endOfItems
        pure a)
    else mismatch expected b

def fieldValue (name : String) (x : Reader α) : Reader α := do
  colon
  within (.name name) x

def fieldOnce (name : String) (seen : Option α) (x : Reader α) : Reader α :=
  if seen.isSome then failUnplaced (.duplicateField name) else fieldValue name x

def otherField (name : String) : Reader Unit :=
  fieldValue name (skipValue [])

def required (name : String) : Option α → Reader α
  | some a => pure a
  | none => fail (.missingField name)

/-! ## Variants -/

/-- A variant: its name as a string, or an object whose one name is that of the
variant and whose value is its content.  An object without any name lacks a
value. -/
def variantValue {κ : Type} (containers : Nat) (known : List (String × κ))
    (bare : String → κ → Reader α) (content : Nat → String → κ → Reader α) : Reader α :=
  let name : Reader (String × κ) := do
    skip
    let s ← string
    match known.lookup s with
    | some k => pure (s, k)
    | none => fail (.unknownVariant s (known.map Prod.fst))
  let key : Reader (String × κ) := do
    match ← lookPastSpace with
    | none => failPast .endOfObject
    | some c =>
        if c = byte '"' then name
        else if c = byte '}' then failPast .expectedValue
        else failPast .expectedName
  lookAtValue fun b =>
    if b = byte '"' then do
      let (s, k) ← name
      bare s k
    else if b = byte '{' then
      enter containers fun n => do
        let (s, k) ← key
        colon
        let a ← within (.name s) (content n s k)
        match ← lookPastSpace with
        | none => fail .endOfObject
        | some c =>
            if c = byte '}' then
              skip
              pure a
            else fail .expectedValue
    else failPast .expectedValue

def namedValue (containers : Nat) (known : List (String × α)) : Reader α :=
  variantValue containers known (fun _ a => pure a) fun _ _ a => do
    unitValue
    pure a

end SchemaSieve.Json.Reader
