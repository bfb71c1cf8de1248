import SchemaSieve.Coercion.Number
import SchemaSieve.Coercion.Phone
import SchemaSieve.Double.Text
import SchemaSieve.Schema.Tag

/-!
# Coercion of scalars

`coerce?` gives the canonical form of a value under a tag.  Validation and
normalization both rest on it, so a value is accepted under a tag exactly when
it can be normalized under it.  Null, booleans and containers have no form under
any tag.
-/

namespace SchemaSieve.Coercion

def toText? : Value → Option String
  | .integer i => some (Decimal.intText i.toInt)
  | .unsigned u => some (Decimal.natText u.toNat)
  | .float x => some x.plainText
  | .string s => some s
  | _ => none

def coerce? (tag : ScalarTag) (v : Value) : Option Value :=
  match tag with
  | .int =>
      match toInteger? v with
      | some i => some (.integer i)
      | none => (toUnsigned? v).map .unsigned
  | .float => (toFloat? v).map .float
  | .string => (toText? v).map .string
  | .phone => (Phone.toPhone? v).map .string

def accepts (tag : ScalarTag) (v : Value) : Bool := (coerce? tag v).isSome

end SchemaSieve.Coercion
