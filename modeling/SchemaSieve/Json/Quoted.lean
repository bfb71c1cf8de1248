/-!
# Quoted strings

A string is written between double quotes.  Quotes, backslashes and the
characters below U+0020 are escaped, five of them by a letter; everything else
stands for itself.
-/

namespace SchemaSieve.Json.Quoted

def hexDigit (n : Nat) : Char :=
  if n < 10 then Char.ofNat (48 + n) else Char.ofNat (87 + n)

def escape (c : Char) : List Char :=
  match c with
  | '"' => ['\\', '"']
  | '\\' => ['\\', '\\']
  | '\x08' => ['\\', 'b']
  | '\x0c' => ['\\', 'f']
  | '\n' => ['\\', 'n']
  | '\r' => ['\\', 'r']
  | '\t' => ['\\', 't']
  | c =>
      if c.toNat < 0x20 then
        ['\\', 'u', '0', '0', hexDigit (c.toNat / 16), hexDigit (c.toNat % 16)]
      else [c]

def chars (s : String) : List Char :=
  '"' :: s.toList.flatMap escape ++ ['"']

end SchemaSieve.Json.Quoted
