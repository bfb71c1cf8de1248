import SchemaSieve.Proofs.Rereading

/-!
# Trees read from compact and from pretty texts

A layout is a way to write trees that is free in its blanks alone: what stands before
the items of a container and its closing bracket, and what stands after a colon.  In any
layout a tree is read back with each double as its own text is read.  The compact text
has no blanks, the pretty text has a line for each item and a blank after colons.
-/

namespace SchemaSieve

open Json Json.Reader

/-! ## Trees with their doubles as read -/

def Number.reread : Number → Number
  | .integer n range => .integer n range
  | .float x finite => .float x.reread (Double.isFinite_reread finite)

theorem reads_number_chars (num : Number) {s : Bytes} (hs : Delimited s) :
    Reads number (encode num.chars ++ s) num.reread s := by
  cases num with
  | integer n range => exact reads_number_intChars range hs
  | float x finite =>
      have hexp := Double.natAbs_exponent_shortest_le finite
      exact (Double.reads_documentChars hexp hs).mpr ⟨Double.floatNumber_shortest finite, rfl⟩

namespace Json

mutual
/-- The tree with every double as its own text is read. -/
def reread : Json → Json
  | .null => .null
  | .bool b => .bool b
  | .number num => .number num.reread
  | .string s => .string s
  | .array xs => .array (rereadItems xs)
  | .object ms => .object (rereadMembers ms)

def rereadItems : List Json → List Json
  | [] => []
  | x :: xs => x.reread :: rereadItems xs

def rereadMembers : List (String × Json) → List (String × Json)
  | [] => []
  | (name, v) :: ms => (name, v.reread) :: rereadMembers ms
end

theorem rereadItems_eq_map (xs : List Json) : rereadItems xs = xs.map reread := by
  induction xs with
  | nil => rfl
  | cons x xs ih => rw [rereadItems, ih, List.map_cons]

theorem rereadMembers_eq_map (ms : List (String × Json)) :
    rereadMembers ms = ms.map fun m => (m.1, m.2.reread) := by
  induction ms with
  | nil => rfl
  | cons m ms ih => rw [rereadMembers, ih, List.map_cons]

/-! ## Layouts -/

def memberChars (gap : List Char) (write : Json → List Char) (m : String × Json) : List Char :=
  Quoted.chars m.1 ++ ':' :: (gap ++ write m.2)

def restChars {α : Type} (line : List Char) (write : α → List Char) (xs : List α) : List Char :=
  xs.flatMap fun x => ',' :: (line ++ write x)

theorem restChars_cons {α : Type} (line : List Char) (write : α → List Char) (x : α)
    (xs : List α) :
    restChars line write (x :: xs) = ',' :: (line ++ (write x ++ restChars line write xs)) := by
  rw [restChars, List.flatMap_cons, List.cons_append, List.append_assoc]
  rfl

structure Layout where
  chars : Nat → Json → List Char
  /-- What comes before an item at a level, and before the bracket that closes the level above. -/
  line : Nat → List Char
  gap : List Char
  blank_line (level : Nat) : Blank (encode (line level))
  blank_gap : Blank (encode gap)
  null (level : Nat) : chars level .null = "null".toList
  bool (level : Nat) (b : Bool) : chars level (.bool b) = boolChars b
  number (level : Nat) (num : Number) : chars level (.number num) = num.chars
  string (level : Nat) (s : String) : chars level (.string s) = Quoted.chars s
  array_nil (level : Nat) : chars level (.array []) = ['[', ']']
  array_cons (level : Nat) (x : Json) (xs : List Json) :
    chars level (.array (x :: xs)) =
      '[' :: (line (level + 1) ++ (chars (level + 1) x ++
        (restChars (line (level + 1)) (chars (level + 1)) xs ++ (line level ++ [']']))))
  object_nil (level : Nat) : chars level (.object []) = ['{', '}']
  object_cons (level : Nat) (m : String × Json) (ms : List (String × Json)) :
    chars level (.object (m :: ms)) =
      '{' :: (line (level + 1) ++ (memberChars gap (chars (level + 1)) m ++
        (restChars (line (level + 1)) (memberChars gap (chars (level + 1))) ms ++
          (line level ++ ['}']))))

theorem encode_restChars_items (line : List Char) (write : Json → List Char) (xs : List Json) :
    encode (restChars line write xs) =
      itemBytes (encode line) (xs.map fun x => encode (write x)) := by
  induction xs with
  | nil => rfl
  | cons x xs ih =>
      rw [restChars_cons, encode_ascii_cons _ (by decide), encode_append, encode_append, ih,
        ← List.append_assoc]
      rfl

def valueBytes (write : Json → List Char) (m : String × Json) : String × Bytes :=
  (m.1, encode (write m.2))

theorem encode_memberChars (gap : List Char) (write : Json → List Char) (m : String × Json) :
    encode (memberChars gap write m) =
      byte '"' :: memberBytes (encode gap) (valueBytes write m) := by
  rw [memberChars, encode_append, encode_quoted, encode_ascii_cons _ (by decide), encode_append,
    memberBytes, valueBytes]
  simp

theorem encode_restChars_members (line gap : List Char) (write : Json → List Char)
    (ms : List (String × Json)) :
    encode (restChars line (memberChars gap write) ms) =
      restBytes (encode line) (encode gap) (ms.map (valueBytes write)) := by
  induction ms with
  | nil => rfl
  | cons m ms ih =>
      rw [restChars_cons, encode_ascii_cons _ (by decide), encode_append, encode_append,
        encode_memberChars, ih, ← List.append_assoc]
      rfl

section Spelling

variable (L : Layout) {n : Nat}

theorem Layout.array_spells {xs : List Json} (level : Nat)
    (hitems : ∀ x ∈ xs, Spells n x.reread (encode (L.chars (level + 1) x))) :
    Spells (n + 1) (Json.array xs).reread (encode (L.chars level (.array xs))) := by
  rw [reread, rereadItems_eq_map]
  cases xs with
  | nil =>
      rw [L.array_nil]
      exact spells_array_nil n
  | cons x xs =>
      obtain ⟨hx, hxs⟩ := List.forall_mem_cons.mp hitems
      have hrest : List.Forall₂ (Spells n) (xs.map reread)
          (xs.map fun x => encode (L.chars (level + 1) x)) := by
        rwa [List.forall₂_map_left_iff, List.forall₂_map_right_iff, List.forall₂_same]
      rw [List.map_cons, L.array_cons, encode_ascii_cons _ (by decide), encode_append,
        encode_append, encode_append, encode_append, encode_restChars_items]
      exact spells_array hx hrest (L.blank_line (level + 1)) (L.blank_line level)

theorem Layout.object_spells {ms : List (String × Json)} (level : Nat)
    (hnames : (Members.names ms).Nodup)
    (hmembers : ∀ m ∈ ms, Spells n m.2.reread (encode (L.chars (level + 1) m.2))) :
    Spells (n + 1) (Json.object ms).reread (encode (L.chars level (.object ms))) := by
  rw [reread, rereadMembers_eq_map]
  cases ms with
  | nil =>
      rw [L.object_nil]
      exact spells_object_nil n
  | cons m ms =>
      obtain ⟨hm, hms⟩ := List.forall_mem_cons.mp hmembers
      have hfirst : SpellsMember n (m.1, m.2.reread) (valueBytes (L.chars (level + 1)) m) :=
        ⟨rfl, hm⟩
      have hrest : List.Forall₂ (SpellsMember n) (ms.map fun m => (m.1, m.2.reread))
          (ms.map (valueBytes (L.chars (level + 1)))) := by
        rw [List.forall₂_map_left_iff, List.forall₂_map_right_iff, List.forall₂_same]
        exact fun m hm => ⟨rfl, hms m hm⟩
      have hreread : (Members.names ((m :: ms).map fun m => (m.1, m.2.reread))).Nodup := by
        rwa [Members.names_map]
      rw [List.map_cons, L.object_cons, encode_ascii_cons _ (by decide), encode_append,
        encode_append, encode_append, encode_append, encode_memberChars,
        encode_restChars_members]
      exact spells_object hfirst hrest (L.blank_line (level + 1)) L.blank_gap
        (L.blank_line level) hreread

/-- In a layout, what is written for a tree stands for the tree with each double as it is
read. -/
theorem Layout.spells {j : Json} (h : j.Within n) (level : Nat) :
    Spells n j.reread (encode (L.chars level j)) := by
  -- for every level at once, since items are written one level further in
  induction h generalizing level with
  | null n =>
      rw [L.null]
      exact spells_null n
  | bool n b =>
      rw [L.bool]
      exact spells_bool n b
  | number n num =>
      rw [L.number]
      exact spells_number n fun rest hrest => reads_number_chars num hrest
  | string n s =>
      rw [L.string]
      exact spells_string n s
  | array items ih => exact L.array_spells level fun x hx => ih x hx (level + 1)
  | object names values ih => exact L.object_spells level names fun m hm => ih m hm (level + 1)

end Spelling

theorem Layout.parse (L : Layout) {j : Json} (h : j.Within containerLimit) (level : Nat) :
    Json.parse (String.ofList (L.chars level j)) = .ok j.reread := by
  rw [Json.parse, bytesOf_ofList]
  exact run_document (L.spells h level)

/-! ## The compact layout -/

theorem compactRest_eq_restChars (xs : List Json) :
    compactRest xs = restChars [] compactChars xs := by
  induction xs with
  | nil => rfl
  | cons x xs ih =>
      rw [compactRest, ih, restChars_cons]
      rfl

theorem compactRestMembers_eq_restChars (ms : List (String × Json)) :
    compactRestMembers ms = restChars [] (memberChars [] compactChars) ms := by
  induction ms with
  | nil => rfl
  | cons m ms ih =>
      rw [compactRestMembers, ih, restChars_cons]
      simp [memberChars]

theorem blank_nil : Blank [] := by simp [Blank]

def compactLayout : Layout where
  chars _ j := j.compactChars
  line _ := []
  gap := []
  blank_line _ := blank_nil
  blank_gap := blank_nil
  null _ := by rw [compactChars]
  bool _ b := by rw [compactChars]
  number _ num := by rw [compactChars]
  string _ s := by rw [compactChars]
  array_nil _ := by rw [compactChars]
  array_cons _ x xs := by
    rw [compactChars, compactRest_eq_restChars]
    simp
  object_nil _ := by rw [compactChars]
  object_cons _ m ms := by
    rw [compactChars, compactRestMembers_eq_restChars]
    simp [memberChars]

/-! ## The pretty layout -/

theorem prettyRest_eq_restChars (level : Nat) (xs : List Json) :
    prettyRest level xs = restChars (newline level) (prettyChars level) xs := by
  induction xs with
  | nil => rfl
  | cons x xs ih =>
      rw [prettyRest, ih, restChars_cons]
      simp

theorem prettyRestMembers_eq_restChars (level : Nat) (ms : List (String × Json)) :
    prettyRestMembers level ms =
      restChars (newline level) (memberChars [' '] (prettyChars level)) ms := by
  induction ms with
  | nil => rfl
  | cons m ms ih =>
      rw [prettyRestMembers, ih, restChars_cons]
      simp [memberChars]

theorem blank_encode {cs : List Char} (h : ∀ c ∈ cs, c = '\n' ∨ c = ' ') :
    Blank (encode cs) := by
  have hascii : ∀ c ∈ cs, c.toNat < 128 := by
    intro c hc
    rcases h c hc with rfl | rfl <;> decide
  rw [encode_of_ascii hascii]
  intro b hb
  obtain ⟨c, hc, rfl⟩ := List.mem_map.mp hb
  rcases h c hc with rfl | rfl <;> decide

theorem blank_newline (level : Nat) : Blank (encode (newline level)) := by
  apply blank_encode
  intro c hc
  rcases List.mem_cons.mp hc with rfl | hc
  · exact .inl rfl
  · exact .inr (List.eq_of_mem_replicate hc)

def prettyLayout : Layout where
  chars := prettyChars
  line := newline
  gap := [' ']
  blank_line := blank_newline
  blank_gap := blank_encode (by simp)
  null _ := by rw [prettyChars]
  bool _ b := by rw [prettyChars]
  number _ num := by rw [prettyChars]
  string _ s := by rw [prettyChars]
  array_nil _ := by rw [prettyChars]
  array_cons level x xs := by
    rw [prettyChars, prettyRest_eq_restChars]
    simp
  object_nil _ := by rw [prettyChars]
  object_cons level m ms := by
    rw [prettyChars, prettyRestMembers_eq_restChars]
    simp [memberChars]

end Json

end SchemaSieve
