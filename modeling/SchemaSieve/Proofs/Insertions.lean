import Mathlib.Data.Finset.Card
import SchemaSieve.Proofs.Equality
import SchemaSieve.Proofs.SchemaTexts

/-!
# Schemas made by insertions

Fields are inserted one after the other, some of them under names that are there already.  Two
occurrences of a name count: the first one gives the place, the last one the type.  These two
laws leave no choice, so a list of insertions makes one schema, whether it is gone through field
by field, collected at once, or written as an object that repeats its names.
-/

namespace SchemaSieve

/-! ## Stores -/

namespace Members

variable {α β : Type} {pairs : List (String × α)} {ms ns : Members α} {name : String} {a : α}

def lastValue? (pairs : List (String × α)) (name : String) : Option α :=
  ((pairs.filter fun p => p.1 = name).getLast?).map Prod.snd

/-- Each name stands where it came first, with the value that came last. -/
structure Keeps (pairs : List (String × α)) (ms : Members α) : Prop where
  ordered : ms.names.Pairwise fun m n => (names pairs).idxOf m < (names pairs).idxOf n
  last : ∀ name, ms.get? name = lastValue? pairs name

inductive Inserted : Members α → List (String × α) → Members α → Prop
  | nil (ms : Members α) : Inserted ms [] ms
  | cons {ms ns : Members α} {name : String} {a : α} {pairs : List (String × α)}
      (rest : Inserted (ms.put name a) pairs ns) : Inserted ms ((name, a) :: pairs) ns

theorem names_concat (pairs : List (String × α)) (name : String) (a : α) :
    names (pairs ++ [(name, a)]) = names pairs ++ [name] := List.map_append

theorem lastValue?_concat (pairs : List (String × α)) (name other : String) (a : α) :
    lastValue? (pairs ++ [(name, a)]) other =
      if name = other then some a else lastValue? pairs other := by
  rw [lastValue?, List.filter_append]
  split
  next h => simp [h]
  next h => simp [h, lastValue?]

theorem lastValue?_eq_none_iff : lastValue? pairs name = none ↔ name ∉ names pairs := by
  rw [lastValue?, Option.map_eq_none_iff, List.getLast?_eq_none_iff, List.filter_eq_nil_iff,
    names, List.mem_map]
  simp only [decide_eq_true_eq, not_exists, not_and]

theorem names_map_get? (h : ms.names.Nodup) :
    ms.names.map (fun name => (name, ms.get? name)) = ms.map fun m => (m.1, some m.2) := by
  rw [names, List.map_map]
  exact List.map_congr_left fun m hm => Prod.ext rfl (get?_of_mem h hm)

theorem eq_of_names_eq (hnodup : ms.names.Nodup) (hnames : ms.names = ns.names)
    (hget : ∀ name, ms.get? name = ns.get? name) : ms = ns := by
  have hmembers : ms.map (fun m => (m.1, some m.2)) = ns.map fun m => (m.1, some m.2) := by
    rw [← names_map_get? hnodup, ← names_map_get? (hnames ▸ hnodup), hnames]
    exact List.map_congr_left fun name _ => by rw [hget]
  refine (List.map_inj_right fun m n hmn => ?_).mp hmembers
  simpa [Prod.ext_iff] using hmn

namespace Keeps

theorem mem_names_iff (h : Keeps pairs ms) : name ∈ ms.names ↔ name ∈ names pairs := by
  rw [← not_iff_not, ← get?_eq_none_iff, h.last, lastValue?_eq_none_iff]

theorem nodup (h : Keeps pairs ms) : ms.names.Nodup :=
  h.ordered.imp fun hlt heq => (heq ▸ hlt).false

theorem length_eq (h : Keeps pairs ms) : ms.length = (names pairs).toFinset.card := by
  have hset : ms.names.toFinset = (names pairs).toFinset := by
    ext name
    rw [List.mem_toFinset, List.mem_toFinset, h.mem_names_iff]
  rw [← hset, List.toFinset_card_of_nodup h.nodup, names, List.length_map]

theorem empty : Keeps ([] : List (String × α)) [] := ⟨.nil, fun _ => rfl⟩

theorem put (h : Keeps pairs ms) (name : String) (a : α) :
    Keeps (pairs ++ [(name, a)]) (ms.put name a) := by
  have hplace : ∀ m ∈ ms.names,
      (names pairs ++ [name]).idxOf m = (names pairs).idxOf m :=
    fun m hm => List.idxOf_append_of_mem (h.mem_names_iff.mp hm)
  have hkept : ms.names.Pairwise fun m n =>
      (names pairs ++ [name]).idxOf m < (names pairs ++ [name]).idxOf n :=
    h.ordered.imp_of_mem fun hm hn hlt => by rwa [hplace _ hm, hplace _ hn]
  constructor
  · rw [names_put, names_concat]
    split
    next => exact hkept
    next hnew =>
      refine List.pairwise_append.mpr ⟨hkept, List.pairwise_singleton _ _, fun m hm n hn => ?_⟩
      rw [List.mem_singleton.mp hn, hplace m hm,
        List.idxOf_append_of_notMem (mt h.mem_names_iff.mpr hnew), List.idxOf_cons_self]
      exact List.idxOf_lt_length_of_mem (h.mem_names_iff.mp hm)
  · intro other
    rw [get?_put, lastValue?_concat, h.last]

theorem inserted {before : List (String × α)} (hrun : Inserted ms pairs ns)
    (h : Keeps before ms) : Keeps (before ++ pairs) ns := by
  induction hrun generalizing before with
  | nil ms => rwa [List.append_nil]
  | cons rest ih =>
      rw [List.append_cons]
      exact ih (h.put _ _)

theorem unique (h : Keeps pairs ms) (h' : Keeps pairs ns) : ms = ns := by
  have hperm : ms.names.Perm ns.names :=
    (List.perm_ext_iff_of_nodup h.nodup h'.nodup).mpr fun name => by
      rw [h.mem_names_iff, h'.mem_names_iff]
  have hnames : ms.names = ns.names :=
    hperm.eq_of_pairwise (fun m n _ _ hmn hnm => absurd hmn hnm.asymm) h.ordered h'.ordered
  exact eq_of_names_eq h.nodup hnames fun name => by rw [h.last, h'.last]

end Keeps

theorem inserted_foldl (ms : Members α) (pairs : List (String × α)) :
    Inserted ms pairs (pairs.foldl (fun ms p => ms.put p.1 p.2) ms) := by
  induction pairs generalizing ms with
  | nil => exact .nil ms
  | cons p pairs ih => exact .cons (ih (ms.put p.1 p.2))

theorem inserted_ofPairs (pairs : List (String × α)) : Inserted [] pairs (ofPairs pairs) :=
  inserted_foldl [] pairs

theorem keeps_ofPairs (pairs : List (String × α)) : Keeps pairs (ofPairs pairs) :=
  Keeps.empty.inserted (inserted_ofPairs pairs)

theorem inserted_iff : Inserted [] pairs ms ↔ ms = ofPairs pairs := by
  constructor
  · exact fun hrun => (Keeps.empty.inserted hrun).unique (keeps_ofPairs pairs)
  · rintro rfl
    exact inserted_ofPairs pairs

example : ofPairs [("b", 1), ("a", 2), ("b", 3), ("c", 4), ("a", 5)] =
    [("b", 3), ("a", 5), ("c", 4)] := by decide

theorem Inserted.map (φ : α → β) (hrun : Inserted ms pairs ns) :
    Inserted (ms.map fun m => (m.1, φ m.2)) (pairs.map fun p => (p.1, φ p.2))
      (ns.map fun m => (m.1, φ m.2)) := by
  induction hrun with
  | nil ms => exact .nil _
  | cons rest ih =>
      rw [List.map_cons]
      exact .cons (map_put φ _ _ _ ▸ ih)

theorem map_ofPairs (φ : α → β) (pairs : List (String × α)) :
    (ofPairs pairs).map (fun m => (m.1, φ m.2)) = ofPairs (pairs.map fun p => (p.1, φ p.2)) :=
  inserted_iff.mp ((inserted_ofPairs pairs).map φ)

end Members

/-! ## Objects in texts -/

open Json Json.Reader Descriptor

namespace Json.Reader

variable {n : Nat} {s rest : Bytes} {acc ms : Members Json} {fields : List (String × Json)}

def ReadsMember (n : Nat) (s : Bytes) (field : String × Json) (rest : Bytes) : Prop :=
  ∃ t u, Reads string s field.1 t ∧ skipSpace t = byte ':' :: u ∧ Reads (tree n) u field.2 rest

/-- The members that an object lists, repeated ones too, from a name on whose opening quote is
taken. -/
inductive ListsMembers (n : Nat) : Bytes → List (String × Json) → Bytes → Prop
  | last {s t rest : Bytes} {field : String × Json} (member : ReadsMember n s field t)
      (close : skipSpace t = byte '}' :: rest) : ListsMembers n s [field] rest
  | next {s t u v rest : Bytes} {field : String × Json} {fields : List (String × Json)}
      (member : ReadsMember n s field t) (comma : skipSpace t = byte ',' :: u)
      (quote : skipSpace u = byte '"' :: v) (more : ListsMembers n v fields rest) :
      ListsMembers n s (field :: fields) rest

inductive ObjectText : Nat → Bytes → List (String × Json) → Bytes → Prop
  | empty {n : Nat} {s t rest : Bytes} (brace : skipSpace s = byte '{' :: t)
      (close : skipSpace t = byte '}' :: rest) : ObjectText (n + 1) s [] rest
  | members {n : Nat} {s t u rest : Bytes} {fields : List (String × Json)}
      (brace : skipSpace s = byte '{' :: t) (quote : skipSpace t = byte '"' :: u)
      (listed : ListsMembers n u fields rest) : ObjectText (n + 1) s fields rest

theorem reads_treeMember_iff {name : String} :
    Reads (treeMember (tree n) acc name) s ms rest ↔
      ∃ t j, skipSpace s = byte ':' :: t ∧ Reads (tree n) t j rest ∧ ms = acc.put name j := by
  simp only [treeMember, reads_bind, reads_within, reads_pure, reads_colon]
  constructor
  · rintro ⟨_, t, hcolon, j, _, hj, rfl, rfl⟩
    exact ⟨t, j, hcolon, hj, rfl⟩
  · rintro ⟨t, j, hcolon, hj, rfl⟩
    exact ⟨(), t, hcolon, j, rest, hj, rfl, rfl⟩

theorem reads_membersFrom_iff_lists :
    Reads (membersFrom (treeMember (tree n)) acc) s ms rest ↔
      ∃ fields, ListsMembers n s fields rest ∧ Members.Inserted acc fields ms := by
  constructor
  · intro h
    induction hlen : s.length using Nat.strongRecOn generalizing s acc with
    | ind k ih =>
        obtain ⟨name, t, acc', u, hname, hmember, hu⟩ := reads_membersFrom.mp h
        obtain ⟨v, j, hcolon, hj, rfl⟩ := reads_treeMember_iff.mp hmember
        have hread : ReadsMember n s (name, j) u := ⟨t, v, hname, hcolon, hj⟩
        rcases hu with ⟨hclose, rfl⟩ | ⟨u', more, hcomma, hquote, hrest⟩
        · exact ⟨[(name, j)], .last hread hclose, .cons (.nil _)⟩
        · have hshort := length_lt_of_skipSpace hcomma
          have hshort' := length_lt_of_skipSpace hquote
          have hle := length_le_of_reads hname
          have hle' := length_le_of_reads hmember
          obtain ⟨fields, hlists, hrun⟩ := ih more.length (by omega) hrest rfl
          exact ⟨_, .next hread hcomma hquote hlists, .cons hrun⟩
  · rintro ⟨fields, hlists, hrun⟩
    induction hlists generalizing acc with
    | last member close =>
        obtain ⟨t, u, hname, hcolon, hj⟩ := member
        obtain - | ⟨⟨⟩⟩ := hrun
        exact reads_membersFrom.mpr ⟨_, _, _, _, hname,
          reads_treeMember_iff.mpr ⟨u, _, hcolon, hj, rfl⟩, .inl ⟨close, rfl⟩⟩
    | next member comma quote more ih =>
        obtain ⟨t, u, hname, hcolon, hj⟩ := member
        obtain - | hrun := hrun
        exact reads_membersFrom.mpr ⟨_, _, _, _, hname,
          reads_treeMember_iff.mpr ⟨u, _, hcolon, hj, rfl⟩, .inr ⟨_, _, comma, quote, ih hrun⟩⟩

theorem reads_object_iff_text :
    Reads (tree (n + 1)) s (.object ms) rest ↔
      ∃ fields, ObjectText (n + 1) s fields rest ∧ Members.Inserted [] fields ms := by
  simp only [reads_tree_object, reads_members, reads_membersFrom_iff_lists]
  constructor
  · rintro ⟨t, hbrace, ⟨hclose, rfl⟩ | ⟨u, hquote, fields, hlists, hrun⟩⟩
    · exact ⟨[], .empty hbrace hclose, .nil _⟩
    · exact ⟨fields, .members hbrace hquote hlists, hrun⟩
  · rintro ⟨fields, htext, hrun⟩
    cases htext with
    | empty brace close =>
        cases hrun
        exact ⟨_, brace, .inl ⟨close, rfl⟩⟩
    | members brace quote listed => exact ⟨_, brace, .inr ⟨_, quote, fields, listed, hrun⟩⟩

end Json.Reader

/-! ## Schemas -/

def classified (fields : List (String × Json)) : List (String × Descriptor) :=
  fields.map fun f => (f.1, classify f.2)

variable {schema : Schema}

theorem reads_schema_iff_text {n : Nat} {s rest : Bytes} :
    (∃ j, Reads (tree (n + 1)) s j rest ∧ Schema.ofJson j = .ok schema) ↔
      ∃ fields, ObjectText (n + 1) s fields rest ∧
        schema = Members.ofPairs (classified fields) := by
  simp only [Schema.ofJson_eq_ok_iff, classifyFields_eq_map, classified, ← Members.map_ofPairs]
  constructor
  · rintro ⟨_, htree, ms, rfl, rfl⟩
    obtain ⟨fields, htext, hrun⟩ := reads_object_iff_text.mp htree
    exact ⟨fields, htext, by rw [Members.inserted_iff.mp hrun]⟩
  · rintro ⟨fields, htext, rfl⟩
    have htree := reads_object_iff_text.mpr ⟨fields, htext, Members.inserted_ofPairs fields⟩
    exact ⟨_, htree, _, rfl, rfl⟩

theorem Schema.read_iff_text {source : Bytes} :
    Schema.read source = .ok schema ↔
      ∃ fields rest, ObjectText containerLimit source fields rest ∧
        schema = Members.ofPairs (classified fields) := by
  rw [Schema.read_eq_ok_iff, exists_comm]
  constructor
  · rintro ⟨rest, hread⟩
    obtain ⟨fields, htext, hschema⟩ := reads_schema_iff_text.mp hread
    exact ⟨fields, rest, htext, hschema⟩
  · rintro ⟨fields, rest, htext, hschema⟩
    exact ⟨rest, reads_schema_iff_text.mpr ⟨fields, htext, hschema⟩⟩

theorem Schema.parse_iff_text {text : String} :
    (∃ j, Json.parse text = .ok j ∧ Schema.ofJson j = .ok schema) ↔
      ∃ fields rest, ObjectText containerLimit (bytesOf text) fields rest ∧
        skipSpace rest = [] ∧ schema = Members.ofPairs (classified fields) := by
  simp only [parse_eq_ok_iff]
  constructor
  · rintro ⟨j, ⟨rest, htree, hblank⟩, hj⟩
    obtain ⟨fields, htext, hschema⟩ := reads_schema_iff_text.mp ⟨j, htree, hj⟩
    exact ⟨fields, rest, htext, hblank, hschema⟩
  · rintro ⟨fields, rest, htext, hblank, hschema⟩
    obtain ⟨j, htree, hj⟩ := reads_schema_iff_text.mpr ⟨fields, htext, hschema⟩
    exact ⟨j, ⟨rest, htree, hblank⟩, hj⟩

/-- What a schema is made of are its fields in the order in which they come.  It is the same
schema if they are inserted one by one, collected at once, or listed by an object that is read as
a schema or parsed first.  Of each name that came there is one field, where the name came first
and with the type that came last; the raw form of the schema lists its fields in that order. -/
theorem schema_of_insertions (pairs : List (String × Descriptor)) :
    let schema : Schema := Members.ofPairs pairs
    let inserted := Members.names pairs
    (∀ s : Schema, Members.Inserted [] pairs s ↔ s = schema) ∧
    (∀ source s, Schema.read source = .ok s ↔
      ∃ fields rest, ObjectText containerLimit source fields rest ∧
        s = Members.ofPairs (classified fields)) ∧
    (∀ text s, (∃ j, Json.parse text = .ok j ∧ Schema.ofJson j = .ok s) ↔
      ∃ fields rest, ObjectText containerLimit (bytesOf text) fields rest ∧ skipSpace rest = [] ∧
        s = Members.ofPairs (classified fields)) ∧
    schema.names.Nodup ∧ (∀ name, name ∈ schema.names ↔ name ∈ inserted) ∧
    schema.names.Pairwise (fun m n => inserted.idxOf m < inserted.idxOf n) ∧
    (∀ name, schema.get? name = Members.lastValue? pairs name) ∧
    (∀ name, schema.get? name = none ↔ name ∉ inserted) ∧
    schema.length = inserted.toFinset.card ∧
    ∃ raw, schema.toJson = .object raw ∧ Members.names raw = schema.names ∧
      ∀ name, Members.get? raw name = (schema.get? name).map Descriptor.toJson := by
  intro schema inserted
  have hlaws : Members.Keeps pairs schema := Members.keeps_ofPairs pairs
  refine ⟨fun s => Members.inserted_iff, fun source s => Schema.read_iff_text,
    fun text s => Schema.parse_iff_text, hlaws.nodup, fun name => hlaws.mem_names_iff,
    hlaws.ordered, hlaws.last, fun name => ?_, hlaws.length_eq,
    ⟨schema.map fun f => (f.1, f.2.toJson), ?_, ?_, fun name => ?_⟩⟩
  · rw [hlaws.last, Members.lastValue?_eq_none_iff]
  · rw [Schema.toJson, fieldsJson_eq_map]
  · exact Members.names_map Descriptor.toJson schema
  · exact Members.get?_map Descriptor.toJson schema name

end SchemaSieve
