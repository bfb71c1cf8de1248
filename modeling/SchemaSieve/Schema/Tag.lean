/-!
# Type tags

Raw schemas name types by number: four scalar types and two composite ones.
-/

namespace SchemaSieve

inductive ScalarTag where
  | int
  | float
  | string
  | phone
deriving DecidableEq, Repr

namespace ScalarTag

def all : List ScalarTag := [.int, .float, .string, .phone]

def code : ScalarTag → Int
  | .int => 0
  | .float => 1
  | .string => 2
  | .phone => 3

def name : ScalarTag → String
  | .int => "INT"
  | .float => "FLOAT"
  | .string => "STRING"
  | .phone => "PHONE"

def ofCode? (code : Int) : Option ScalarTag :=
  all.find? (·.code = code)

end ScalarTag

def mapCode : Int := 100

def arrayCode : Int := 101

def tagNames : List (Int × String) :=
  ScalarTag.all.map (fun tag => (tag.code, tag.name)) ++
    [(mapCode, "MAP"), (arrayCode, "ARRAY")]

def tagName? (code : Int) : Option String := tagNames.lookup code

end SchemaSieve
