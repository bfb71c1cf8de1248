import SchemaSieve.Json.Printer
import SchemaSieve.Schema.Tag

/-!
# Readable schema fragments

Raw fragments as messages show them: objects become `["name"=>…]`, and every
integer that is a tag becomes its name, at any depth.
-/

namespace SchemaSieve.Fragment

def numberChars (n : Number) : List Char :=
  match n.int?.bind tagName? with
  | some name => name.toList
  | none => n.chars

mutual
def chars : Json → List Char
  | .array [] => ['[', ']']
  | .array (x :: xs) => '[' :: chars x ++ charsRest xs ++ [']']
  | .object [] => ['[', ']']
  | .object ((name, v) :: ms) =>
      '[' :: Json.Quoted.chars name ++ '=' :: '>' :: chars v ++ charsRestMembers ms ++ [']']
  | .number n => numberChars n
  | .null => "null".toList
  | .bool b => Json.boolChars b
  | .string s => Json.Quoted.chars s

def charsRest : List Json → List Char
  | [] => []
  | x :: xs => ',' :: chars x ++ charsRest xs

def charsRestMembers : List (String × Json) → List Char
  | [] => []
  | (name, v) :: ms =>
      ',' :: Json.Quoted.chars name ++ '=' :: '>' :: chars v ++ charsRestMembers ms
end

def render (raw : Json) : String := String.ofList (chars raw)

end SchemaSieve.Fragment
