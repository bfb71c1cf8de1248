/-!
# Bytes of texts

Files and JSON texts are read as bytes; `textOf?` gives the text that bytes
encode in UTF-8.  `Text.Utf8.validLength` counts the bytes of the complete
characters that they start with, up to the first byte that cannot continue it.
-/

namespace SchemaSieve

abbrev Bytes := List UInt8

def bytesOf (text : String) : Bytes := text.toUTF8.data.toList

def textOf? (bytes : Bytes) : Option String := String.fromUTF8? ⟨bytes.toArray⟩

end SchemaSieve

namespace SchemaSieve.Text.Utf8

def isTail (b : UInt8) : Bool := 0x80 ≤ b && b ≤ 0xBF

/-- How many tail bytes a lead byte asks for, and the range of the first. -/
def tailsAfter? (lead : UInt8) : Option (Nat × UInt8 × UInt8) :=
  if lead ≤ 0x7F then some (0, 0x80, 0xBF)
  else if 0xC2 ≤ lead && lead ≤ 0xDF then some (1, 0x80, 0xBF)
  else if lead == 0xE0 then some (2, 0xA0, 0xBF)
  else if lead == 0xED then some (2, 0x80, 0x9F)
  else if 0xE1 ≤ lead && lead ≤ 0xEF then some (2, 0x80, 0xBF)
  else if lead == 0xF0 then some (3, 0x90, 0xBF)
  else if 0xF1 ≤ lead && lead ≤ 0xF3 then some (3, 0x80, 0xBF)
  else if lead == 0xF4 then some (3, 0x80, 0x8F)
  else none

def charLength? : List UInt8 → Option Nat
  | [] => none
  | lead :: rest =>
      match tailsAfter? lead with
      | none => none
      | some (0, _, _) => some 1
      | some (n + 1, low, high) =>
          match rest with
          | [] => none
          | b :: rest =>
              if low ≤ b && b ≤ high && n ≤ rest.length && (rest.take n).all isTail then
                some (n + 2)
              else none

def validLength (s : List UInt8) : Nat :=
  match charLength? s with
  | none => 0
  | some 0 => 0
  | some (n + 1) => if s = [] then 0 else n + 1 + validLength (s.drop (n + 1))
termination_by s.length
decreasing_by
  have : s.length ≠ 0 := fun h => ‹¬s = []› (List.eq_nil_of_length_eq_zero h)
  simp only [List.length_drop]
  omega

end SchemaSieve.Text.Utf8
