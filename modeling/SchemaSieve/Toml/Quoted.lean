import SchemaSieve.Toml.Reader

/-!
# Quoted text

Text stands between quotes, on one line or on several between triple quotes.
Double quotes allow escapes and single quotes do not.  A text on several lines
may hold up to two quotes in a row, also just before its end, and drops a line
end that comes first.
-/

namespace SchemaSieve.Toml.Reader

def hexNumber (acc : Nat) : Nat → Reader Nat
  | 0 => pure acc
  | n + 1 => do
      match hexDigit? (← next) with
      | some d => hexNumber (16 * acc + d) n
      | none => fail

def coded (n : Nat) : Reader Char := do
  let code ← hexNumber 0 n
  if code.isValidChar then pure (.ofNat code) else fail

def escaped : Reader Char := do
  match ← next with
  | 'b' => pure '\x08'
  | 't' => pure '\t'
  | 'n' => pure '\n'
  | 'f' => pure '\x0c'
  | 'r' => pure '\r'
  | '"' => pure '"'
  | '\\' => pure '\\'
  | 'u' => coded 4
  | 'U' => coded 8
  | _ => fail

def line (quote : Char) : Reader String := do
  let cs ← repeating do
    let c ← next
    if c = quote then pure none
    else if c = '\\' ∧ quote = '"' then
      let d ← escaped
      pure (some d)
    else if isText c then pure (some c)
    else fail
  pure (String.ofList cs)

/-- The end of a line, or one that a backslash hides with all blank space after
it. -/
def hiddenEnd : Reader Unit := do
  blanks
  newline
  let _ ← repeating do
    match ← look with
    | some '\n' | some '\r' =>
        newline
        pure (some ())
    | some c =>
        if isBlank c then
          skip
          pure (some ())
        else pure none
    | none => pure none
  pure ()

def blockPart (quote : Char) : Reader (Option (List Char)) := do
  match ← look with
  | none => fail
  | some '\n' | some '\r' =>
      newline
      pure (some ['\n'])
  | some c =>
      if c = quote then
        if ← startsWith (List.replicate 6 quote) then fail
        else if (← startsWith (List.replicate 3 quote)) &&
            !(← startsWith (List.replicate 4 quote)) then pure none
        else
          skip
          pure (some [quote])
      else if c = '\\' ∧ quote = '"' then
        skip
        match ← look with
        | some ' ' | some '\t' | some '\n' | some '\r' =>
            hiddenEnd
            pure (some [])
        | _ =>
            let d ← escaped
            pure (some [d])
      else if isText c then
        skip
        pure (some [c])
      else fail

def block (quote : Char) : Reader String := do
  match ← look with
  | some '\n' | some '\r' => newline
  | _ => pure ()
  let parts ← repeating (blockPart quote)
  word (List.replicate 3 quote)
  pure (String.ofList parts.flatten)

def quoted (quote : Char) : Reader String := do
  if ← startsWith (List.replicate 3 quote) then
    word (List.replicate 3 quote)
    block quote
  else
    skip
    line quote

end SchemaSieve.Toml.Reader
