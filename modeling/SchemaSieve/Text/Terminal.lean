/-!
# Text for a terminal

A line ends at a line feed, with or without a carriage return before it; an end
of text just after a line feed starts no line.  Text is shown in a colour or
weight; painting may be switched off, and then leaves the text as it is.
-/

namespace SchemaSieve.Text

/-! ## Lines -/

def withoutReturn (cs : List Char) : List Char :=
  if cs.getLast? = some '\r' then cs.dropLast else cs

def lines (text : String) : List String :=
  let parts := text.toList.splitOn '\n'
  let ended := parts.dropLast.map fun cs => String.ofList (withoutReturn cs)
  match parts.getLast? with
  | none | some [] => ended
  | some last => ended ++ [String.ofList last]

def indent (margin text : String) : String :=
  String.join ((lines text).map fun line => margin ++ line ++ "\n")

/-! ## Paint -/

inductive Style where
  | red
  | yellow
  | boldRed
  | boldGreen
  | boldYellow
  | dimmed
deriving DecidableEq, Repr

def Style.codes : Style → String
  | .red => "31"
  | .yellow => "33"
  | .boldRed => "1;31"
  | .boldGreen => "1;32"
  | .boldYellow => "1;33"
  | .dimmed => "2"

def Style.opening (s : Style) : String := "\x1b[" ++ s.codes ++ "m"

def closing : String := "\x1b[0m"

/-- Repeat an opening after every closing inside a text. -/
def reopened (opening : List Char) : List Char → List Char
  | [] => []
  | c :: cs =>
      if (closing.toList).isPrefixOf (c :: cs) then
        closing.toList ++ opening ++ reopened opening (cs.drop (closing.length - 1))
      else c :: reopened opening cs
termination_by cs => cs.length
decreasing_by all_goals simp only [List.length_drop, List.length_cons]; omega

def paint (color : Bool) (s : Style) (text : String) : String :=
  if color then
    s.opening ++ String.ofList (reopened s.opening.toList text.toList) ++ closing
  else text

end SchemaSieve.Text
