import SchemaSieve.Json.Containers

/-!
# Skipping values

A value nobody asked for is passed over without being built.  The containers
around it are kept in a list, so there is no limit on nesting; strings and
numbers have their shape checked and no more.
-/

namespace SchemaSieve.Json.Reader

inductive Frame where
  | list
  | object
deriving DecidableEq

def Frame.close : Frame → UInt8
  | .list => byte ']'
  | .object => byte '}'

def Frame.endReason : Frame → Reason
  | .list => .endOfList
  | .object => .endOfObject

def Frame.separatorReason : Frame → Reason
  | .list => .expectedListSeparator
  | .object => .expectedObjectSeparator

def skipScalarFrom (b : UInt8) : Reader Unit :=
  if b = byte 'n' then word [byte 'u', byte 'l', byte 'l']
  else if b = byte 't' then word [byte 'r', byte 'u', byte 'e']
  else if b = byte 'f' then word [byte 'a', byte 'l', byte 's', byte 'e']
  else if b = byte '-' then skipNegative
  else if isDigitByte b then skipNumberFrom b
  else if b = byte '"' then skipString
  else fail .expectedValue

def skipName : Reader Unit := do
  match ← lookPastSpace with
  | none => failPast .endOfObject
  | some b =>
      if b = byte '"' then
        skip
        skipString
        colon
      else failPast .expectedName

def Frame.introduce : Frame → Reader Unit
  | .list => pure ()
  | .object => skipName

mutual
def skipValue (frames : List Frame) (s : Bytes) : Except Fault (Read Unit s) :=
  match h : skipSpace s with
  | [] => .error ⟨.endOfValue, [], [], true⟩
  | b :: rest =>
      have hs : rest.length < s.length := length_lt_of_skipSpace h
      if b = byte '[' then (skipFirst .list frames rest).map (.up (Nat.le_of_lt hs))
      else if b = byte '{' then (skipFirst .object frames rest).map (.up (Nat.le_of_lt hs))
      else
        match skipScalarFrom b rest with
        | .error e => .error e
        | .ok r =>
            match frames with
            | [] => .ok (r.up (Nat.le_of_lt hs))
            | frame :: frames =>
                (skipAfter frame frames r.rest).map
                  (.up (Nat.le_of_lt (Nat.lt_of_le_of_lt r.le hs)))
termination_by (s.length, 0)
decreasing_by
  · omega
  · omega
  · have := r.le
    omega

def skipFirst (frame : Frame) (frames : List Frame) (s : Bytes) : Except Fault (Read Unit s) :=
  match h : skipSpace s with
  | [] => .error ⟨frame.endReason, [], [], true⟩
  | b :: rest =>
      have hs : rest.length < s.length := length_lt_of_skipSpace h
      if b = frame.close then
        match frames with
        | [] => .ok ⟨(), rest, Nat.le_of_lt hs⟩
        | frame :: frames => (skipAfter frame frames rest).map (.up (Nat.le_of_lt hs))
      else
        match frame.introduce s with
        | .error e => .error e
        | .ok r => (skipValue (frame :: frames) r.rest).map (.up r.le)
termination_by (s.length, 1)
decreasing_by
  · omega
  · have := r.le
    omega

def skipAfter (frame : Frame) (frames : List Frame) (s : Bytes) : Except Fault (Read Unit s) :=
  match h : skipSpace s with
  | [] => .error ⟨frame.endReason, [], [], true⟩
  | b :: rest =>
      have hs : rest.length < s.length := length_lt_of_skipSpace h
      if b = byte ',' then
        match frame.introduce rest with
        | .error e => .error e
        | .ok r =>
            (skipValue (frame :: frames) r.rest).map
              (.up (Nat.le_of_lt (Nat.lt_of_le_of_lt r.le hs)))
      else if b = frame.close then
        match frames with
        | [] => .ok ⟨(), rest, Nat.le_of_lt hs⟩
        | frame :: frames => (skipAfter frame frames rest).map (.up (Nat.le_of_lt hs))
      else .error ⟨frame.separatorReason, [], rest, true⟩
termination_by (s.length, 1)
decreasing_by
  · have := r.le
    omega
  · omega
end

end SchemaSieve.Json.Reader
