import SchemaSieve.Json.Reader
import SchemaSieve.Text.Bytes

/-!
# Reading strings

Strings are read as bytes after their opening quote.  An escape by code unit
gives one character; a leading surrogate must be followed by the escape of a
trailing one.  The bytes so collected have to be UTF-8.

A skipped string has only the shape of its escapes checked.
-/

namespace SchemaSieve.Json.Reader

def hexValue? (b : UInt8) : Option Nat :=
  if isDigitByte b then some (digitOf b)
  else if byte 'a' ≤ b && b ≤ byte 'f' then some (b.toNat - 87)
  else if byte 'A' ≤ b && b ≤ byte 'F' then some (b.toNat - 55)
  else none

/-- Four hexadecimal digits.  Fewer than four bytes are the end of the text. -/
def codeUnit : Reader Nat
  | a :: b :: c :: d :: rest =>
      match hexValue? a, hexValue? b, hexValue? c, hexValue? d with
      | some w, some x, some y, some z =>
          .ok ⟨((w * 16 + x) * 16 + y) * 16 + z, rest, by simp only [List.length_cons]; omega⟩
      | _, _, _, _ => .error ⟨.invalidEscape, [], rest, true⟩
  | _ => .error ⟨.endOfString, [], [], true⟩

def surrogateByte (b : UInt8) : Reader Unit := do
  match ← next with
  | none => fail .endOfString
  | some c => if c = b then pure () else fail .endOfSurrogates

def codePoint : Reader Nat := do
  let n ← codeUnit
  if 0xDC00 ≤ n ∧ n ≤ 0xDFFF then fail .loneSurrogate
  else if n < 0xD800 ∨ 0xDFFF < n then pure n
  else
    surrogateByte (byte '\\')
    surrogateByte (byte 'u')
    let m ← codeUnit
    if m < 0xDC00 ∨ 0xDFFF < m then fail .loneSurrogate
    else pure (0x10000 + (n - 0xD800) * 0x400 + (m - 0xDC00))

def escapedByte? (b : UInt8) : Option UInt8 :=
  if b = byte '"' ∨ b = byte '\\' ∨ b = byte '/' then some b
  else if b = byte 'b' then some 8
  else if b = byte 'f' then some 12
  else if b = byte 'n' then some 10
  else if b = byte 'r' then some 13
  else if b = byte 't' then some 9
  else none

def escaped : Reader Bytes := do
  match ← next with
  | none => fail .endOfString
  | some b =>
      if b = byte 'u' then
        let n ← codePoint
        pure (String.utf8EncodeChar (Char.ofNat n))
      else
        match escapedByte? b with
        | some c => pure [c]
        | none => fail .invalidEscape

def stringBytes (s : Bytes) : Except Fault (Read Bytes s) :=
  match s with
  | [] => .error ⟨.endOfString, [], [], true⟩
  | b :: rest =>
      if b = byte '"' then .ok ⟨[], rest, Nat.le_succ _⟩
      else if b = byte '\\' then
        match escaped rest with
        | .error e => .error e
        | .ok r =>
            match stringBytes r.rest with
            | .error e => .error e
            | .ok q =>
                .ok ⟨r.value ++ q.value, q.rest, Nat.le_succ_of_le (Nat.le_trans q.le r.le)⟩
      else if b < 0x20 then .error ⟨.controlCharacter, [], rest, true⟩
      else
        match stringBytes rest with
        | .error e => .error e
        | .ok q => .ok ⟨b :: q.value, q.rest, Nat.le_succ_of_le q.le⟩
termination_by s.length
decreasing_by
  · exact Nat.lt_succ_of_le r.le
  · exact Nat.lt_succ_self _

/-- A string after its opening quote.  Bytes that are not UTF-8 are reported as
many bytes before the end of the string as follow the valid beginning. -/
def string : Reader String := fun s =>
  match stringBytes s with
  | .error e => .error e
  | .ok r =>
      match textOf? r.value with
      | some t => .ok ⟨t, r.rest, r.le⟩
      | none =>
          let invalid := r.value.length - Text.Utf8.validLength r.value
          .error ⟨.invalidUnicode, [], s.drop (s.length - r.rest.length - invalid), true⟩

/-! ## Skipped strings -/

def skipEscaped : Reader Unit := do
  match ← next with
  | none => fail .endOfString
  | some b =>
      if b = byte 'u' then
        let _ ← codeUnit
      else if (escapedByte? b).isNone then fail .invalidEscape

def skipString (s : Bytes) : Except Fault (Read Unit s) :=
  match s with
  | [] => .error ⟨.endOfString, [], [], true⟩
  | b :: rest =>
      if b = byte '"' then .ok ⟨(), rest, by simp⟩
      else if b = byte '\\' then
        match skipEscaped rest with
        | .error e => .error e
        | .ok r =>
            match skipString r.rest with
            | .error e => .error e
            | .ok q => .ok ⟨(), q.rest, by
                have := q.le; have := r.le; simp only [List.length_cons]; omega⟩
      else if b < 0x20 then .error ⟨.controlCharacter, [], b :: rest, true⟩
      else
        match skipString rest with
        | .error e => .error e
        | .ok q => .ok ⟨(), q.rest, by have := q.le; simp only [List.length_cons]; omega⟩
termination_by s.length
decreasing_by
  · have := r.le; simp only [List.length_cons]; omega
  · simp

end SchemaSieve.Json.Reader
