import SchemaSieve.Members
import SchemaSieve.Toml.Scalar

/-!
# Assembling tables

Tables grow while a text is read: headers open them, rows are added to arrays of
tables, and dotted keys reach into tables below.  Each of these may go only
where nothing else has claimed the name, so a table remembers what made it.
-/

namespace SchemaSieve.Toml

inductive Origin where
  | header
  | implied
  | dotted
deriving DecidableEq

/-- What stands under a name.  The rows of an array of tables are kept with the
last one first. -/
inductive Item where
  | value (v : Toml)
  | table (origin : Origin) (fields : List (String × Item))
  | tables (rows : List (List (String × Item)))
deriving Inhabited

namespace Item

abbrev Fields := Members Item

mutual
def toToml : Item → Toml
  | .value v => v
  | .table _ fields => .table (fieldsToml fields)
  | .tables rows => .array (rowsToml rows).reverse

def fieldsToml : List (String × Item) → List (String × Toml)
  | [] => []
  | (name, item) :: fields => (name, item.toToml) :: fieldsToml fields

def rowsToml : List (List (String × Item)) → List Toml
  | [] => []
  | row :: rows => .table (fieldsToml row) :: rowsToml rows
end

/-- Change the fields of the table that headers with the names `path` go into;
tables on the way are made, and the last row of an array of tables stands for
it. -/
def under (path : List String) (change : Fields → Option Fields) (fields : Fields) :
    Option Fields :=
  match path with
  | [] => change fields
  | name :: path =>
      match fields.get? name with
      | none => do
          let inner ← under path change []
          some (fields.put name (.table .implied inner))
      | some (.table origin inner) => do
          let inner ← under path change inner
          some (fields.put name (.table origin inner))
      | some (.tables (row :: rows)) => do
          let row ← under path change row
          some (fields.put name (.tables (row :: rows)))
      | some _ => none

def openTable (name : String) (fields : Fields) : Option Fields :=
  match fields.get? name with
  | none => some (fields.put name (.table .header []))
  | some (.table .implied inner) => some (fields.put name (.table .header inner))
  | some _ => none

def openRow (name : String) (fields : Fields) : Option Fields :=
  match fields.get? name with
  | none => some (fields.put name (.tables [[]]))
  | some (.tables rows) => some (fields.put name (.tables ([] :: rows)))
  | some _ => none

def putNew (name : String) (v : Toml) (fields : Fields) : Option Fields :=
  match fields.get? name with
  | none => some (fields.put name (.value v))
  | some _ => none

/-- Put a value under a dotted key, in a table made by `origin`.  A key of
several names ends in a table made by such keys, and on the way passes no table
that has a header of its own. -/
def putDotted (origin : Origin) (path : List String) (name : String) (v : Toml)
    (fields : Fields) : Option Fields :=
  match path with
  | [] => if origin = .dotted then putNew name v fields else none
  | step :: path =>
      match fields.get? step with
      | none => do
          let inner ← putDotted .dotted path name v []
          some (fields.put step (.table .dotted inner))
      | some (.table .header _) => none
      | some (.table origin inner) => do
          let inner ← putDotted origin path name v inner
          some (fields.put step (.table origin inner))
      | some (.tables (row :: rows)) => do
          let row ← putDotted .header path name v row
          some (fields.put step (.tables (row :: rows)))
      | some _ => none

def putKey (path : List String) (name : String) (v : Toml) (fields : Fields) :
    Option Fields :=
  if path.isEmpty then putNew name v fields else putDotted .header path name v fields

end Item

end SchemaSieve.Toml
