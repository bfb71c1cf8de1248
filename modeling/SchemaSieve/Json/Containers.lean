import SchemaSieve.Json.Numerals
import SchemaSieve.Json.Strings

/-!
# Reading containers

The loops over lists and objects take the reader of an item or member as an
argument, so they serve trees and typed data alike.  They start after the
opening bracket and take the closing one.  A fault between items belongs to the
list; one that arises where a name is due belongs to an unknown member.
-/

namespace SchemaSieve.Json.Reader

variable {α σ : Type}

/-! ## Lists -/

def itemsFrom (item : Reader α) (i : Nat) (s : Bytes) : Except Fault (Read (List α) s) :=
  match within (.index i) item s with
  | .error e => .error e
  | .ok r =>
      match h : skipSpace r.rest with
      | [] => .error ⟨.endOfList, [], [], true⟩
      | b :: rest =>
          have hb : rest.length < s.length := by
            have := skipSpace_length_le r.rest
            have := r.le
            simp only [h, List.length_cons] at *
            omega
          if b = byte ']' then .ok ⟨[r.value], rest, Nat.le_of_lt hb⟩
          else if b = byte ',' then
            match skipSpace rest, skipSpace_length_le rest with
            | [], _ => .error ⟨.endOfValue, [], [], true⟩
            | c :: more, hc =>
                if c = byte ']' then .error ⟨.trailingComma, [], more, true⟩
                else
                  match itemsFrom item (i + 1) (c :: more) with
                  | .error e => .error e
                  | .ok q => .ok ⟨r.value :: q.value, q.rest, by have := q.le; omega⟩
          else .error ⟨.expectedListSeparator, [], rest, true⟩
termination_by s.length
decreasing_by omega

def items (item : Reader α) : Reader (List α) := do
  match ← lookPastSpace with
  | none => failPast .endOfList
  | some b =>
      if b = byte ']' then
        skip
        pure []
      else itemsFrom item 0

/-- The next item of a list that is read one by one; nothing at its end. -/
def item? (i : Nat) (item : Reader α) : Reader (Option α) := do
  match ← lookPastSpace with
  | none => failPast .endOfList
  | some b =>
      if b = byte ']' then pure none
      else if i = 0 then
        let x ← within (.index i) item
        pure (some x)
      else if b = byte ',' then
        skip
        match ← lookPastSpace with
        | none => failPast .endOfValue
        | some c =>
            if c = byte ']' then failPast .trailingComma
            else
              let x ← within (.index i) item
              pure (some x)
      else failPast .expectedListSeparator

def endOfItems : Reader Unit := do
  match ← lookPastSpace with
  | none => failPast .endOfList
  | some b =>
      if b = byte ']' then skip
      else if b = byte ',' then
        skip
        if (← lookPastSpace) = some (byte ']') then failPast .trailingComma
        else failPast .trailingCharacters
      else failPast .trailingCharacters

/-! ## Objects -/

/-- The members of an object from a name on, whose opening quote is taken.
`member` reads what follows a name, with the colon, and extends what the
members before have given. -/
def membersFrom (member : σ → String → Reader σ) (acc : σ) (s : Bytes) :
    Except Fault (Read σ s) :=
  match within .unknown string s with
  | .error e => .error e
  | .ok name =>
      match member acc name.value name.rest with
      | .error e => .error e
      | .ok r =>
          match h : skipSpace r.rest with
          | [] => .error ⟨.endOfObject, [.unknown], [], true⟩
          | b :: rest =>
              have hb : rest.length < s.length := by
                have := skipSpace_length_le r.rest
                have := r.le
                have := name.le
                simp only [h, List.length_cons] at *
                omega
              if b = byte '}' then .ok ⟨r.value, rest, Nat.le_of_lt hb⟩
              else if b = byte ',' then
                match skipSpace rest, skipSpace_length_le rest with
                | [], _ => .error ⟨.endOfValue, [.unknown], [], true⟩
                | c :: more, hc =>
                    if c = byte '"' then
                      match membersFrom member r.value more with
                      | .error e => .error e
                      | .ok q => .ok ⟨q.value, q.rest, by
                          have := q.le
                          simp only [List.length_cons] at hc
                          omega⟩
                    else if c = byte '}' then
                      .error ⟨.trailingComma, [.unknown], more, true⟩
                    else .error ⟨.expectedName, [.unknown], more, true⟩
              else .error ⟨.expectedObjectSeparator, [.unknown], rest, true⟩
termination_by s.length
decreasing_by
  simp only [List.length_cons] at hc
  omega

def members (member : σ → String → Reader σ) (start : σ) : Reader σ := do
  match ← lookPastSpace with
  | none => within .unknown (failPast .endOfObject)
  | some b =>
      if b = byte '}' then
        skip
        pure start
      else if b = byte '"' then
        skip
        membersFrom member start
      else within .unknown (failPast .expectedName)

def colon : Reader Unit := do
  match ← lookPastSpace with
  | none => failPast .endOfObject
  | some b => if b = byte ':' then skip else failPast .expectedColon

/-! ## Nesting -/

def enter (containers : Nat) (body : Nat → Reader α) : Reader α :=
  match containers with
  | 0 => failPast .tooManyContainers
  | n + 1 => do
      skip
      body n

end SchemaSieve.Json.Reader
