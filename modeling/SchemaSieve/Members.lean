/-!
# Named members in order

The members of an object, a mapping or a schema are a list of names and values
without repeated names.  `put` keeps it so: a new name goes to the end, a known
one keeps its place and takes the new value.
-/

namespace SchemaSieve

abbrev Members (α : Type) := List (String × α)

namespace Members

variable {α : Type}

def names (ms : Members α) : List String := ms.map Prod.fst

def put : Members α → String → α → Members α
  | [], name, value => [(name, value)]
  | (n, v) :: ms, name, value =>
      if n = name then (n, value) :: ms else (n, v) :: put ms name value

def get? : Members α → String → Option α
  | [], _ => none
  | (n, v) :: ms, name => if n = name then some v else get? ms name

/-- Collect pairs in order; of a repeated name the first place and the last
value stay. -/
def ofPairs (pairs : List (String × α)) : Members α :=
  pairs.foldl (fun ms p => ms.put p.1 p.2) []

@[simp] theorem get?_nil (name : String) : get? ([] : Members α) name = none := rfl

theorem get?_put (ms : Members α) (name other : String) (value : α) :
    (ms.put name value).get? other =
      if name = other then some value else ms.get? other := by
  induction ms with
  | nil => simp [put, get?]
  | cons m ms ih =>
      obtain ⟨n, v⟩ := m
      by_cases h : n = name
      · subst h
        by_cases ho : n = other <;> simp [put, get?, ho]
      · by_cases ho : n = other
        · subst ho
          simp [put, get?, h, Ne.symm h]
        · simp [put, get?, h, ho, ih]

theorem names_put (ms : Members α) (name : String) (value : α) :
    (ms.put name value).names =
      if name ∈ ms.names then ms.names else ms.names ++ [name] := by
  induction ms with
  | nil => simp [put, names]
  | cons m ms ih =>
      obtain ⟨n, v⟩ := m
      simp only [names] at ih
      by_cases h : n = name
      · simp [put, names, h]
      · by_cases hm : name ∈ List.map Prod.fst ms <;>
          simp [put, names, h, Ne.symm h, ih, hm]

end Members

end SchemaSieve
