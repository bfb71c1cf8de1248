import SchemaSieve.Proofs.DecidableEquality
import SchemaSieve.Proofs.RawForms
import SchemaSieve.Proofs.Readers
import SchemaSieve.Schema.Reading

/-!
# Schemas read from texts

A schema can be read straight from a text, or the text is parsed and its tree converted.
The two readers go over an object in step: what one has gathered is at every member the
classification of what the other has gathered, repeated names included.  So they read the
same schema off the front of a text.  They differ in what may follow: parsing takes a whole
document, whereas nothing looks at what comes after a schema.
-/

namespace SchemaSieve

open Descriptor Json Json.Reader

namespace Json.Reader

variable {α σ τ : Type} {a : α} {s rest : Bytes}

theorem run_eq_ok_iff {x : Reader α} : x.run s = .ok a ↔ ∃ rest, Reads x s a rest := by
  unfold run
  constructor
  · intro h
    cases hx : x s with
    | error fault => simp [hx, Except.map] at h
    | ok r =>
        rw [hx] at h
        cases h
        exact ⟨r.rest, reads_of_eq_ok hx⟩
  · rintro ⟨rest, hle, hx⟩
    rw [hx]
    rfl

theorem reads_unique {x : Reader α} {b : α} {t : Bytes} (h : Reads x s a rest)
    (h' : Reads x s b t) : a = b ∧ rest = t := by
  obtain ⟨hle, hx⟩ := h
  obtain ⟨hle', hx'⟩ := h'
  rw [hx] at hx'
  cases hx'
  exact ⟨rfl, rfl⟩

/-! ## Objects read in step -/

section Step

variable {member : σ → String → Reader σ} {member' : τ → String → Reader τ} {φ : σ → τ}
  (hstep : ∀ acc name s m t, Reads (member' (φ acc) name) s m t ↔
    ∃ acc', Reads (member acc name) s acc' t ∧ m = φ acc')

include hstep

theorem reads_membersFrom_map {acc : σ} {m : τ} :
    Reads (membersFrom member' (φ acc)) s m rest ↔
      ∃ acc', Reads (membersFrom member acc) s acc' rest ∧ m = φ acc' := by
  induction hlen : s.length using Nat.strongRecOn generalizing s acc with
  | ind n ih =>
      have hshort : ∀ {name t acc' u u' more}, Reads string s name t →
          Reads (member acc name) t acc' u → skipSpace u = byte ',' :: u' →
          skipSpace u' = byte '"' :: more → more.length < n := by
        intro name t acc' u u' more hname hmember hcomma hquote
        have hu := length_lt_of_skipSpace hcomma
        have hu' := length_lt_of_skipSpace hquote
        have ht := length_le_of_reads hname
        have hacc := length_le_of_reads hmember
        omega
      rw [reads_membersFrom]
      constructor
      · rintro ⟨name, t, _, u, hname, hread, hu⟩
        obtain ⟨acc', hmember, rfl⟩ := (hstep acc name t _ u).mp hread
        rcases hu with ⟨hclose, rfl⟩ | ⟨u', more, hcomma, hquote, hrest⟩
        · exact ⟨acc', reads_membersFrom.mpr ⟨name, t, acc', u, hname, hmember,
            .inl ⟨hclose, rfl⟩⟩, rfl⟩
        · obtain ⟨last, hlast, rfl⟩ :=
            (ih more.length (hshort hname hmember hcomma hquote) rfl).mp hrest
          exact ⟨last, reads_membersFrom.mpr ⟨name, t, acc', u, hname, hmember,
            .inr ⟨u', more, hcomma, hquote, hlast⟩⟩, rfl⟩
      · rintro ⟨last, hlast, rfl⟩
        obtain ⟨name, t, acc', u, hname, hmember, hu⟩ := reads_membersFrom.mp hlast
        refine ⟨name, t, φ acc', u, hname, (hstep acc name t _ u).mpr ⟨acc', hmember, rfl⟩, ?_⟩
        rcases hu with ⟨hclose, rfl⟩ | ⟨u', more, hcomma, hquote, hrest⟩
        · exact .inl ⟨hclose, rfl⟩
        · exact .inr ⟨u', more, hcomma, hquote,
            (ih more.length (hshort hname hmember hcomma hquote) rfl).mpr ⟨last, hrest, rfl⟩⟩

theorem reads_members_map (start : σ) {m : τ} :
    Reads (members member' (φ start)) s m rest ↔
      ∃ acc, Reads (members member start) s acc rest ∧ m = φ acc := by
  simp only [reads_members, reads_membersFrom_map hstep]
  constructor
  · rintro (⟨hclose, rfl⟩ | ⟨t, hquote, acc, hacc, rfl⟩)
    · exact ⟨start, .inl ⟨hclose, rfl⟩, rfl⟩
    · exact ⟨acc, .inr ⟨t, hquote, hacc⟩, rfl⟩
  · rintro ⟨acc, ⟨hclose, rfl⟩ | ⟨t, hquote, hacc⟩, rfl⟩
    · exact .inl ⟨hclose, rfl⟩
    · exact .inr ⟨t, hquote, acc, hacc, rfl⟩

end Step

/-! ## Values that are objects -/

@[simp] theorem not_reads_mismatch {expected : String} {b : UInt8} :
    ¬ Reads (mismatch expected b : Reader α) s a rest := by
  unfold mismatch
  simp only
  repeat' split
  all_goals simp [reads_bind]

theorem reads_mapValue {n : Nat} {member : Nat → σ → String → Reader σ} {start m : σ} :
    Reads (mapValue (n + 1) member start) s m rest ↔
      ∃ t, skipSpace s = byte '{' :: t ∧ Reads (members (member n) start) t m rest := by
  rw [mapValue, lookAtValue, reads_lookPastSpace_bind]
  cases skipSpace s with
  | nil => simp
  | cons b t =>
      by_cases hb : b = byte '{'
      · simp [hb, enter]
      · simp [hb]

theorem reads_treeWith_congr {list : Reader Json} (object object' : Reader Json) {j : Json}
    (hb : (skipSpace s).head? ≠ some (byte '{')) :
    Reads (treeWith list object) s j rest ↔ Reads (treeWith list object') s j rest := by
  rw [treeWith, treeWith, reads_lookPastSpace_bind, reads_lookPastSpace_bind]
  cases hs : skipSpace s with
  | nil => rfl
  | cons b t =>
      have hne : b ≠ byte '{' := by simpa [hs] using hb
      simp only [List.head?_cons, if_neg hne]

theorem reads_tree_object {n : Nat} {ms : Members Json} :
    Reads (tree (n + 1)) s (.object ms) rest ↔
      ∃ t, skipSpace s = byte '{' :: t ∧ Reads (members (treeMember (tree n)) []) t ms rest := by
  rw [tree]
  constructor
  · intro h
    by_cases hb : (skipSpace s).head? = some (byte '{')
    · obtain ⟨t, ht⟩ := List.head?_eq_some_iff.mp hb
      rw [treeWith, reads_lookPastSpace_bind, ht] at h
      have hobject := reads_skip_bind.mp h
      simp only [reads_bind, reads_pure, Json.object.injEq] at hobject
      obtain ⟨_, _, hms, rfl, rfl⟩ := hobject
      exact ⟨t, ht, hms⟩
    · have hother := (reads_treeWith_congr _ (failPast .expectedValue) hb).mp h
      rcases cases_of_reads_treeWith hother with hscalar | hlist | hfail
      · cases hscalar
      · rw [reads_skip_bind, reads_bind] at hlist
        obtain ⟨xs, t, -, hpure⟩ := hlist
        cases (reads_pure.mp hpure).1
      · exact absurd hfail not_reads_failPast
  · rintro ⟨t, ht, hms⟩
    rw [treeWith, reads_lookPastSpace_bind, ht]
    refine reads_skip_bind.mpr ?_
    rw [reads_bind]
    exact ⟨ms, rest, hms, reads_pure.mpr ⟨rfl, rfl⟩⟩

end Json.Reader

/-! ## A schema and the tree of its text -/

section

variable {n : Nat} {s rest : Bytes} {schema : Schema}

theorem Members.map_put {α β : Type} (φ : α → β) (ms : Members α) (name : String) (a : α) :
    (ms.put name a).map (fun m => (m.1, φ m.2)) =
      Members.put (ms.map fun m => (m.1, φ m.2)) name (φ a) := by
  induction ms with
  | nil => rfl
  | cons m ms ih =>
      obtain ⟨other, k⟩ := m
      simp only [Members.put, List.map_cons]
      split
      · rfl
      · rw [List.map_cons, ih]

def schemaMember (n : Nat) (fields : Schema) (name : String) : Reader Schema := do
  let raw ← fieldValue name (tree n)
  pure (Members.put fields name (classify raw))

theorem reads_schemaMember (acc : Members Json) (name : String) (s : Bytes) (fields : Schema)
    (t : Bytes) :
    Reads (schemaMember n (classifyFields acc) name) s fields t ↔
      ∃ acc', Reads (treeMember (tree n) acc name) s acc' t ∧ fields = classifyFields acc' := by
  simp only [schemaMember, fieldValue, treeMember, reads_bind, reads_within, reads_pure,
    classifyFields_eq_map]
  constructor
  · rintro ⟨j, _, ⟨_, u, hcolon, hj⟩, rfl, rfl⟩
    exact ⟨acc.put name j, ⟨_, u, hcolon, j, _, hj, rfl, rfl⟩,
      (Members.map_put classify acc name j).symm⟩
  · rintro ⟨_, ⟨_, u, hcolon, j, _, hj, rfl, rfl⟩, rfl⟩
    exact ⟨j, _, ⟨_, u, hcolon, hj⟩, Members.map_put classify acc name j, rfl⟩

theorem Schema.ofJson_eq_ok_iff {j : Json} :
    Schema.ofJson j = .ok schema ↔ ∃ fields, j = .object fields ∧ schema = classifyFields fields := by
  cases j <;> simp [Schema.ofJson, eq_comm]

theorem reads_schemaValue :
    Reads (schemaValue (n + 1)) s schema rest ↔
      ∃ j, Reads (tree (n + 1)) s j rest ∧ Schema.ofJson j = .ok schema := by
  have hmembers : ∀ t, Reads (members (schemaMember n) []) t schema rest ↔
      ∃ ms, Reads (members (treeMember (tree n)) []) t ms rest ∧ schema = classifyFields ms :=
    fun t => reads_members_map reads_schemaMember []
  rw [schemaValue, reads_mapValue]
  simp only [Schema.ofJson_eq_ok_iff]
  constructor
  · rintro ⟨t, ht, h⟩
    obtain ⟨ms, hms, rfl⟩ := (hmembers t).mp h
    exact ⟨.object ms, reads_tree_object.mpr ⟨t, ht, hms⟩, ms, rfl, rfl⟩
  · rintro ⟨_, h, ms, rfl, rfl⟩
    obtain ⟨t, ht, hms⟩ := reads_tree_object.mp h
    exact ⟨t, ht, (hmembers t).mpr ⟨ms, hms, rfl⟩⟩

/-! ## Whole documents -/

theorem Schema.read_eq_ok_iff {source : Bytes} :
    Schema.read source = .ok schema ↔
      ∃ j rest, Reads (tree containerLimit) source j rest ∧ Schema.ofJson j = .ok schema := by
  rw [Schema.read, run_eq_ok_iff]
  have hreads : ∀ rest, Reads (schemaValue containerLimit) source schema rest ↔ _ :=
    fun rest => reads_schemaValue
  simp only [hreads]
  exact exists_comm

theorem reads_finish {u : Unit} : Reads finish s u rest ↔ skipSpace s = [] ∧ rest = [] := by
  rw [finish, reads_lookPastSpace_bind]
  cases skipSpace s with
  | nil => simp
  | cons b t => simp

theorem parse_eq_ok_iff {text : String} {j : Json} :
    Json.parse text = .ok j ↔
      ∃ rest, Reads (tree containerLimit) (bytesOf text) j rest ∧ skipSpace rest = [] := by
  rw [Json.parse, run_eq_ok_iff]
  simp only [document, reads_bind, reads_finish, reads_pure]
  constructor
  · rintro ⟨_, j', rest, htree, _, _, ⟨hblank, -⟩, rfl, -⟩
    exact ⟨rest, htree, hblank⟩
  · rintro ⟨rest, htree, hblank⟩
    exact ⟨[], j, rest, htree, (), [], ⟨hblank, rfl⟩, rfl, rfl⟩

theorem parse_of_trailing {text : String} {j : Json}
    (h : Reads (tree containerLimit) (bytesOf text) j rest) (hrest : skipSpace rest ≠ []) :
    Json.parse text = .error ⟨.trailingCharacters, [], (skipSpace rest).tail, true⟩ := by
  obtain ⟨hle, htree⟩ := h
  have hfinish : finish rest = .error ⟨.trailingCharacters, [], (skipSpace rest).tail, true⟩ := by
    obtain ⟨b, t, hs⟩ := List.exists_cons_of_ne_nil hrest
    simp [finish, bind_apply, lookPastSpace, space, look, hs, failPast]
  rw [Json.parse, run, document, bind_apply, htree]
  simp only [bind_apply, hfinish]
  rfl

end

/-- A schema is read from a text exactly if the first value of the text, parsed as a tree, is
one of a schema; the same schema comes out.  Parsing the whole text gives that schema exactly
if nothing but blanks follows the value.  So the two agree on every document, and a text from
which only one of them gets a schema is refused by the other for its trailing characters. -/
theorem schema_read_from_first_value (text : String) (schema : Schema) :
    (Schema.read (bytesOf text) = .ok schema ↔ ∃ j rest,
      Reads (tree containerLimit) (bytesOf text) j rest ∧ Schema.ofJson j = .ok schema) ∧
    ((∃ j, Json.parse text = .ok j ∧ Schema.ofJson j = .ok schema) ↔ ∃ j rest,
      Reads (tree containerLimit) (bytesOf text) j rest ∧ Schema.ofJson j = .ok schema ∧
        skipSpace rest = []) ∧
    (∀ j, Json.parse text = .ok j →
      (Schema.read (bytesOf text) = .ok schema ↔ Schema.ofJson j = .ok schema)) ∧
    (Schema.read (bytesOf text) = .ok schema →
      (∃ j, Json.parse text = .ok j ∧ Schema.ofJson j = .ok schema) ∨
        ∃ fault, Json.parse text = .error fault ∧ fault.reason = .trailingCharacters) := by
  refine ⟨Schema.read_eq_ok_iff, ?_, fun j hparse => ?_, fun hread => ?_⟩
  · simp only [parse_eq_ok_iff]
    constructor
    · rintro ⟨j, ⟨rest, htree, hblank⟩, hj⟩
      exact ⟨j, rest, htree, hj, hblank⟩
    · rintro ⟨j, rest, htree, hj, hblank⟩
      exact ⟨j, ⟨rest, htree, hblank⟩, hj⟩
  · obtain ⟨rest, htree, -⟩ := parse_eq_ok_iff.mp hparse
    rw [Schema.read_eq_ok_iff]
    constructor
    · rintro ⟨j', rest', htree', hj'⟩
      obtain ⟨rfl, -⟩ := reads_unique htree htree'
      exact hj'
    · exact fun hj => ⟨j, rest, htree, hj⟩
  · obtain ⟨j, rest, htree, hj⟩ := Schema.read_eq_ok_iff.mp hread
    by_cases hblank : skipSpace rest = []
    · exact .inl ⟨j, parse_eq_ok_iff.mpr ⟨rest, htree, hblank⟩, hj⟩
    · exact .inr ⟨_, parse_of_trailing htree hblank, rfl⟩

theorem schema_read_from_first_value_repeated_name :
    let text := "\x7b\"a\":0,\"b\":[101,2],\"a\":3\x7d\n"
    let j : Json := .object [("a", tagJson 3 (by decide)),
      ("b", .array [tagJson 101 (by decide), tagJson 2 (by decide)])]
    let schema : Schema := [("a", .scalar .phone), ("b", .array (.scalar .string))]
    Json.parse text = .ok j ∧ Schema.ofJson j = .ok schema ∧
      Schema.read (bytesOf text) = .ok schema := by
  intro text j schema
  have hparse : Json.parse text = .ok j := by decide +kernel
  have hj : Schema.ofJson j = .ok schema := by decide +kernel
  exact ⟨hparse, hj, ((schema_read_from_first_value text schema).2.2.1 j hparse).mpr hj⟩

/-- What follows the first value is not looked at. -/
theorem schema_read_before_trailing_text :
    let text := "\x7b\"id\":0\x7d x"
    Schema.read (bytesOf text) = .ok [("id", .scalar .int)] ∧
      ∃ fault, Json.parse text = .error fault ∧ fault.reason = .trailingCharacters := by
  intro text
  refine ⟨by decide +kernel, ⟨.trailingCharacters, [], [], true⟩, by decide +kernel, rfl⟩

end SchemaSieve
