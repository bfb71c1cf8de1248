import SchemaSieve.Decimal.Digits
import SchemaSieve.Json.Basic

/-!
# Pointers into trees

A pointer is empty, for the whole tree, or a list of reference tokens each after
a slash.  In a token `~1` stands for a slash and `~0` for a tilde.  An index has
no sign and no leading zero.
-/

namespace SchemaSieve.Json.Pointer

def unescape : List Char → List Char
  | '~' :: '1' :: cs => '/' :: unescape cs
  | '~' :: '0' :: cs => '~' :: unescape cs
  | c :: cs => c :: unescape cs
  | [] => []

def tokens? (pointer : String) : Option (List String) :=
  match pointer.toList with
  | [] => some []
  | '/' :: cs => some ((cs.splitOn '/').map fun token => String.ofList (unescape token))
  | _ => none

def index? (token : String) : Option Nat :=
  match token.toList with
  | ['0'] => some 0
  | '0' :: _ => none
  | cs => Decimal.readNat? cs

def child? : Json → String → Option Json
  | .object members, token => Members.get? members token
  | .array items, token => (index? token).bind (items[·]?)
  | _, _ => none

end Pointer

def select? (j : Json) (pointer : String) : Option Json := do
  let tokens ← Pointer.tokens? pointer
  tokens.foldlM Pointer.child? j

end SchemaSieve.Json
