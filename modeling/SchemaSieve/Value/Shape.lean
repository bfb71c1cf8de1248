import SchemaSieve.Decimal.Digits
import SchemaSieve.Value.Basic

/-!
# Shape of a value

Whether a container counts as a sequence or as a mapping is decided by its
contents.  A mapping named exactly `0`, `1`, …, in order, is a sequence, and an
empty container is both.  `depth` counts container levels.
-/

namespace SchemaSieve.Value

def isContainer : Value → Bool
  | .sequence _ | .mapping _ => true
  | _ => false

def indexedFrom (i : Nat) : List (String × Value) → Bool
  | [] => true
  | (name, _) :: ms => name == Decimal.natText i && indexedFrom (i + 1) ms

def isSequence : Value → Bool
  | .sequence _ => true
  | .mapping ms => indexedFrom 0 ms
  | _ => false

def isMapping : Value → Bool
  | .sequence xs => xs.isEmpty
  | .mapping ms => ms.isEmpty || !indexedFrom 0 ms
  | _ => false

def indexed (i : Nat) : List Value → List (String × Value)
  | [] => []
  | x :: xs => (Decimal.natText i, x) :: indexed (i + 1) xs

/-- The named entries of a container; items are named by their position. -/
def entries : Value → List (String × Value)
  | .sequence xs => indexed 0 xs
  | .mapping ms => ms
  | _ => []

def elements : Value → List Value
  | .sequence xs => xs
  | .mapping ms => ms.map Prod.snd
  | _ => []

/-! ## Depth -/

mutual
def size : Value → Nat
  | .sequence xs => 1 + sizeItems xs
  | .mapping ms => 1 + sizeMembers ms
  | _ => 1

def sizeItems : List Value → Nat
  | [] => 0
  | x :: xs => x.size + sizeItems xs

def sizeMembers : List (String × Value) → Nat
  | [] => 0
  | (_, v) :: ms => v.size + sizeMembers ms
end

theorem size_pos (v : Value) : 0 < v.size := by
  cases v <;> simp only [size] <;> omega

theorem sizeItems_append (xs ys : List Value) :
    sizeItems (xs ++ ys) = sizeItems xs + sizeItems ys := by
  induction xs with
  | nil => simp [sizeItems]
  | cons x xs ih => simp [sizeItems, ih, Nat.add_assoc]

theorem sizeMembers_eq_sizeItems (ms : List (String × Value)) :
    sizeMembers ms = sizeItems (ms.map Prod.snd) := by
  induction ms with
  | nil => rfl
  | cons m ms ih => simp [sizeMembers, sizeItems, ih]

theorem sizeItems_elements_lt (v : Value) : sizeItems v.elements < v.size := by
  cases v <;> simp [elements, size, sizeItems, sizeMembers_eq_sizeItems]

theorem sizeMembers_indexed (i : Nat) (xs : List Value) :
    sizeMembers (indexed i xs) = sizeItems xs := by
  induction xs generalizing i with
  | nil => rfl
  | cons x xs ih => simp [indexed, sizeMembers, sizeItems, ih]

theorem sizeMembers_entries_lt (v : Value) : sizeMembers v.entries < v.size := by
  cases v <;> simp [entries, size, sizeMembers, sizeMembers_indexed]

/-! A traversal goes down from a value to the list of its parts, and from a list to its head. -/

theorem visit_parts {a b : Nat} (h : a < b) : 2 * a + 1 < 2 * b := by omega

theorem visit_head {a b : Nat} (h : a ≤ b) : 2 * a < 2 * b + 1 := by omega

theorem visit_tail {a b : Nat} (h : a < b) : 2 * a + 1 < 2 * b + 1 := by omega

/-- The greatest level reached by the values waiting, each with the number of
containers around it, and by those already seen. -/
def deepest (reached : Nat) : List (Value × Nat) → Nat
  | [] => reached
  | (v, d) :: waiting =>
      let level := if v.isContainer then d + 1 else d
      deepest (max reached level) (v.elements.map (·, d + 1) ++ waiting)
termination_by waiting => sizeItems (waiting.map Prod.fst)
decreasing_by
  have h : sizeItems v.elements < v.size := sizeItems_elements_lt v
  simp only [List.map_append, List.map_map, Function.comp_def, List.map_id', sizeItems_append,
    List.map_cons, sizeItems]
  omega

/-- The nesting of containers: none for a scalar, one for an empty container.
The values still to be visited are kept in a list, so a deep tree needs no deep
recursion. -/
def depth (v : Value) : Nat := deepest 0 [(v, 0)]

end SchemaSieve.Value
