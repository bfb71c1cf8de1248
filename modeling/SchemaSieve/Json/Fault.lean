import SchemaSieve.Json.Printer
import SchemaSieve.Text.Bytes
import SchemaSieve.Text.Visible

/-!
# Faults in JSON text

A fault is a reason, the place in the text where it is reported and the path to
the value being read.  A place is kept as the bytes that follow it, so a reader
needs no counter; line and column are computed from the whole text when the
fault is shown.
-/

namespace SchemaSieve.Json

/-! ## Paths -/

/-- A step into a document; `unknown` stands for a member whose name was being
read. -/
inductive Segment where
  | name (s : String)
  | index (i : Nat)
  | unknown
deriving DecidableEq

def pathRest : List Segment → String
  | [] => ""
  | .name s :: path => "." ++ s ++ pathRest path
  | .index i :: path => "[" ++ Decimal.natText i ++ "]" ++ pathRest path
  | .unknown :: path => ".?" ++ pathRest path

def pathText : List Segment → String
  | [] => "."
  | .name s :: path => s ++ pathRest path
  | .index i :: path => "[" ++ Decimal.natText i ++ "]" ++ pathRest path
  | .unknown :: path => "?" ++ pathRest path

/-! ## Reasons -/

inductive Found where
  | null
  | boolean (b : Bool)
  | number (n : Number)
  | string (s : String)
  | sequence
  | map
  | unitVariant

def Found.text : Found → String
  | .null => "null"
  | .boolean b => "boolean `" ++ String.ofList (boolChars b) ++ "`"
  | .number (.integer n h) => "integer `" ++ String.ofList (Number.integer n h).chars ++ "`"
  | .number (.float x h) =>
      "floating point `" ++ String.ofList (Number.float x h).chars ++ "`"
  | .string s => "string " ++ Text.Visible.quote s
  | .sequence => "sequence"
  | .map => "map"
  | .unitVariant => "unit variant"

inductive Reason where
  | endOfValue
  | endOfList
  | endOfObject
  | endOfString
  | expectedValue
  | expectedWord
  | expectedColon
  | expectedListSeparator
  | expectedObjectSeparator
  | expectedName
  | trailingComma
  | trailingCharacters
  | invalidNumber
  | numberOutOfRange
  | invalidEscape
  | controlCharacter
  | loneSurrogate
  | endOfSurrogates
  | invalidUnicode
  | tooManyContainers
  | invalidType (found : Found) (expected : String)
  | invalidValue (found : Found) (expected : String)
  | invalidLength (length : Nat) (expected : String)
  | unknownVariant (name : String) (known : List String)
  | missingField (name : String)
  | duplicateField (name : String)

private def ticked (s : String) : String := "`" ++ s ++ "`"

def alternatives : List String → String
  | [] => "there are no variants"
  | [a] => "expected " ++ ticked a
  | [a, b] => "expected " ++ ticked a ++ " or " ++ ticked b
  | names => "expected one of " ++ ", ".intercalate (names.map ticked)

def Reason.text : Reason → String
  | .endOfValue => "EOF while parsing a value"
  | .endOfList => "EOF while parsing a list"
  | .endOfObject => "EOF while parsing an object"
  | .endOfString => "EOF while parsing a string"
  | .expectedValue => "expected value"
  | .expectedWord => "expected ident"
  | .expectedColon => "expected `:`"
  | .expectedListSeparator => "expected `,` or `]`"
  | .expectedObjectSeparator => "expected `,` or `\x7d`"
  | .expectedName => "key must be a string"
  | .trailingComma => "trailing comma"
  | .trailingCharacters => "trailing characters"
  | .invalidNumber => "invalid number"
  | .numberOutOfRange => "number out of range"
  | .invalidEscape => "invalid escape"
  | .controlCharacter =>
      "control character (\\u0000-\\u001F) found while parsing a string"
  | .loneSurrogate => "lone leading surrogate in hex escape"
  | .endOfSurrogates => "unexpected end of hex escape"
  | .invalidUnicode => "invalid unicode code point"
  | .tooManyContainers => "recursion limit exceeded"
  | .invalidType found expected => "invalid type: " ++ found.text ++ ", expected " ++ expected
  | .invalidValue found expected => "invalid value: " ++ found.text ++ ", expected " ++ expected
  | .invalidLength n expected =>
      "invalid length " ++ Decimal.natText n ++ ", expected " ++ expected
  | .unknownVariant name known =>
      "unknown variant " ++ ticked name ++ ", " ++ alternatives known
  | .missingField name => "missing field " ++ ticked name
  | .duplicateField name => "duplicate field " ++ ticked name

/-! ## Faults -/

/-- A fault reported before the bytes `unread`.  One that concerns an object as
a whole is not yet `placed`: its place is where the object around it closes. -/
structure Fault where
  reason : Reason
  path : List Segment
  unread : Bytes
  placed : Bool

/-- A place in a text: lines from one, columns as bytes since the last line
break. -/
structure Position where
  line : Nat
  column : Nat
deriving DecidableEq

def newlineByte : UInt8 := 10

def Position.after (read : Bytes) : Position where
  line := 1 + read.count newlineByte
  column := (read.reverse.takeWhile (· != newlineByte)).length

def Fault.position (source : Bytes) (f : Fault) : Position :=
  .after (source.take (source.length - f.unread.length))

def Fault.text (source : Bytes) (f : Fault) : String :=
  let p := f.position source
  f.reason.text ++ " at line " ++ Decimal.natText p.line ++ " column " ++
    Decimal.natText p.column

def Fault.located (source : Bytes) (f : Fault) : String :=
  "at JSON path " ++ pathText f.path ++ " → " ++ f.text source

end SchemaSieve.Json
