import SchemaSieve.Json.Printer
import SchemaSieve.Value.Basic

/-!
# Texts of values

`text` is the canonical text, as messages quote it: the compact text of the
lowered tree.  `compact` writes a value directly and `pretty` on several lines.
-/

namespace SchemaSieve.Value

def floatChars (x : Double) : List Char :=
  if x.isFinite then x.documentChars else "null".toList

mutual
def compactChars : Value → List Char
  | .null => "null".toList
  | .bool b => Json.boolChars b
  | .integer i => Decimal.intChars i.toInt
  | .unsigned u => Decimal.natChars u.toNat
  | .float x => floatChars x
  | .string s => Json.Quoted.chars s
  | .sequence [] => ['[', ']']
  | .sequence (x :: xs) => '[' :: x.compactChars ++ compactRest xs ++ [']']
  | .mapping [] => ['{', '}']
  | .mapping ((name, v) :: ms) =>
      '{' :: Json.Quoted.chars name ++ ':' :: v.compactChars ++
        compactRestMembers ms ++ ['}']

def compactRest : List Value → List Char
  | [] => []
  | x :: xs => ',' :: x.compactChars ++ compactRest xs

def compactRestMembers : List (String × Value) → List Char
  | [] => []
  | (name, v) :: ms =>
      ',' :: Json.Quoted.chars name ++ ':' :: v.compactChars ++ compactRestMembers ms
end

def compact (v : Value) : String := String.ofList v.compactChars

def text (v : Value) : String := v.toJson.compact

def pretty (v : Value) : String := v.toJson.pretty

end SchemaSieve.Value
