import SchemaSieve.Decimal.Digits
import SchemaSieve.Double.Text
import SchemaSieve.Json.Basic
import SchemaSieve.Json.Quoted

/-!
# Texts of JSON trees

The compact text has no blank; the pretty text puts every item and member on a
line of its own, indented by two spaces a level.  Empty containers are `[]` and
`{}` in both.
-/

namespace SchemaSieve

def Number.chars : Number → List Char
  | .integer n _ => Decimal.intChars n
  | .float x _ => x.documentChars

namespace Json

def boolChars (b : Bool) : List Char := (if b then "true" else "false").toList

mutual
def compactChars : Json → List Char
  | .null => "null".toList
  | .bool b => boolChars b
  | .number n => n.chars
  | .string s => Quoted.chars s
  | .array [] => ['[', ']']
  | .array (x :: xs) => '[' :: x.compactChars ++ compactRest xs ++ [']']
  | .object [] => ['{', '}']
  | .object ((name, v) :: ms) =>
      '{' :: Quoted.chars name ++ ':' :: v.compactChars ++ compactRestMembers ms ++ ['}']

def compactRest : List Json → List Char
  | [] => []
  | x :: xs => ',' :: x.compactChars ++ compactRest xs

def compactRestMembers : List (String × Json) → List Char
  | [] => []
  | (name, v) :: ms =>
      ',' :: Quoted.chars name ++ ':' :: v.compactChars ++ compactRestMembers ms
end

def newline (level : Nat) : List Char := '\n' :: List.replicate (2 * level) ' '

mutual
def prettyChars (level : Nat) : Json → List Char
  | .null => "null".toList
  | .bool b => boolChars b
  | .number n => n.chars
  | .string s => Quoted.chars s
  | .array [] => ['[', ']']
  | .array (x :: xs) =>
      '[' :: newline (level + 1) ++ prettyChars (level + 1) x ++
        prettyRest (level + 1) xs ++ newline level ++ [']']
  | .object [] => ['{', '}']
  | .object ((name, v) :: ms) =>
      '{' :: newline (level + 1) ++ Quoted.chars name ++ ':' :: ' ' ::
        prettyChars (level + 1) v ++ prettyRestMembers (level + 1) ms ++
        newline level ++ ['}']

def prettyRest (level : Nat) : List Json → List Char
  | [] => []
  | x :: xs => ',' :: newline level ++ prettyChars level x ++ prettyRest level xs

def prettyRestMembers (level : Nat) : List (String × Json) → List Char
  | [] => []
  | (name, v) :: ms =>
      ',' :: newline level ++ Quoted.chars name ++ ':' :: ' ' ::
        prettyChars level v ++ prettyRestMembers level ms
end

def compact (j : Json) : String := String.ofList j.compactChars

def pretty (j : Json) : String := String.ofList (j.prettyChars 0)

end Json

end SchemaSieve
