import SchemaSieve.Toml.Assembly
import SchemaSieve.Toml.Quoted
import SchemaSieve.Toml.Scalar

/-!
# Statements

A TOML text is a list of statements, each on lines of its own: the header of a
table, the header of a row of an array of tables, or a key with its value.
`document?` reads them and assembles the table they describe.
-/

namespace SchemaSieve.Toml

/-- The nesting of arrays and inline tables, and the number of names in a key,
stay below this. -/
def nestingLimit : Nat := 80

structure Key where
  path : List String
  name : String

def Key.ofNames? (names : List String) : Option Key :=
  match names.getLast? with
  | some name => if names.length < nestingLimit then some ⟨names.dropLast, name⟩ else none
  | none => none

inductive Statement where
  | table (key : Key)
  | row (key : Key)
  | field (key : Key) (value : Toml)

namespace Reader

/-! ## Keys -/

def isKeyChar (c : Char) : Bool := c.isAlphanum || c = '_' || c = '-'

def keyName : Reader String := do
  blanks
  let name ←
    match ← look with
    | some '"' => do
        skip
        line '"'
    | some '\'' => do
        skip
        line '\''
    | _ => do
        let cs ← takeWhile isKeyChar
        if cs.isEmpty then fail else pure (String.ofList cs)
  blanks
  pure name

def key : Reader Key := do
  let first ← keyName
  let more ← repeating do
    if (← look) = some '.' then
      skip
      let name ← keyName
      pure (some name)
    else pure none
  match Key.ofNames? (first :: more) with
  | some k => pure k
  | none => fail

def keyed (value : Reader Toml) : Reader (Key × Toml) := do
  let k ← key
  word ['=']
  blanks
  let v ← value
  pure (k, v)

/-! ## Values -/

def blankAndDigit : List Char → Bool
  | ' ' :: c :: _ => Decimal.isDigit c
  | _ => false

def bare : Reader Toml := do
  let cs ← takeWhile isBare
  let cs ←
    if isDate cs && (← peek blankAndDigit) then do
      skip
      let time ← takeWhile isBare
      pure (cs ++ ' ' :: time)
    else pure cs
  match ofChars? cs with
  | some v => pure v
  | none => fail

/-- Items between commas up to a closing bracket, which is taken.  `separate`
takes what may stand around an item, and `trailing` allows a comma after the
last one. -/
def between {α : Type} (item : Reader α) (separate : Reader Unit) (trailing : Bool)
    (close : Char) : Reader (List α) := do
  separate
  if (← look) = some close then
    skip
    pure []
  else
    let first ← item
    separate
    let more ← repeating do
      if (← look) = some ',' then
        skip
        separate
        if trailing && (← look) = some close then pure none
        else
          let x ← item
          separate
          pure (some x)
      else pure none
    word [close]
    pure (first :: more)

def inlineTable? (fields : List (Key × Toml)) : Option Toml := do
  let items ← fields.foldlM (fun items f => Item.putKey f.1.path f.1.name f.2 items) []
  some (.table (Item.fieldsToml items))

def value : Nat → Reader Toml
  | 0 => do
      match ← look with
      | some '"' => .string <$> quoted '"'
      | some '\'' => .string <$> quoted '\''
      | _ => bare
  | n + 1 => do
      match ← look with
      | some '"' => .string <$> quoted '"'
      | some '\'' => .string <$> quoted '\''
      | some '[' =>
          skip
          let xs ← between (value n) gap true ']'
          pure (.array xs)
      | some '{' =>
          skip
          let fields ← between (keyed (value n)) blanks false '}'
          match inlineTable? fields with
          | some v => pure v
          | none => fail
      | _ => bare

/-! ## Statements -/

def header : Reader Statement := do
  if ← startsWith ['[', '['] then
    word ['[', '[']
    let k ← key
    word [']', ']']
    pure (.row k)
  else
    skip
    let k ← key
    word [']']
    pure (.table k)

def statementLine : Reader (Option (Option Statement)) := do
  blanks
  match ← look with
  | none => pure none
  | some c =>
      let statement ←
        if c = '[' then some <$> header
        else if c = '#' ∨ c = '\n' ∨ c = '\r' then pure none
        else do
          let (k, v) ← keyed (value (nestingLimit - 1))
          pure (some (.field k v))
      endOfLine
      pure (some statement)

def statements : Reader (List Statement) := do
  let lines ← repeating statementLine
  pure (lines.filterMap id)

end Reader

/-! ## Documents -/

structure Draft where
  fields : Item.Fields
  header : List String

def Draft.add? (d : Draft) : Statement → Option Draft
  | .table k => do
      let fields ← Item.under k.path (Item.openTable k.name) d.fields
      some ⟨fields, k.path ++ [k.name]⟩
  | .row k => do
      let fields ← Item.under k.path (Item.openRow k.name) d.fields
      some ⟨fields, k.path ++ [k.name]⟩
  | .field k v => do
      let fields ← Item.under d.header (Item.putKey k.path k.name v) d.fields
      some { d with fields }

def byteOrderMark : Char := '\ufeff'

def document? (text : String) : Option (List (String × Toml)) := do
  let cs :=
    match text.toList with
    | c :: cs => if c = byteOrderMark then cs else c :: cs
    | [] => []
  let statements ← Reader.statements.run cs
  let draft ← statements.foldlM Draft.add? ⟨[], []⟩
  some (Item.fieldsToml draft.fields)

end SchemaSieve.Toml
