import SchemaSieve.Proofs.DecidableEquality
import SchemaSieve.Proofs.Names

/-!
# Places of issues

With elements placed by index, the path of an issue is an address.  Followed from the
root of the document by the names of entries it leads to the value that the issue is
about, and no two issues of a document have the same path.

An issue of a field below `p` has a path that goes on from `p` with the name of the field,
so the issues of different fields are apart, and apart from the one that may stand at `p`.
-/

namespace SchemaSieve

open Value

/-! ## Following a path -/

namespace Value

def follow? (v : Value) (path : List String) : Option Value :=
  match path with
  | [] => some v
  | name :: path => (Members.get? v.entries name).bind fun x => x.follow? path

theorem follow?_cons_of_mem {v : Value} {e : String × Value}
    (hnames : (Members.names v.entries).Nodup) (he : e ∈ v.entries) (path : List String) :
    v.follow? (e.1 :: path) = e.2.follow? path := by
  rw [follow?, Members.get?_of_mem hnames he, Option.bind_some]

theorem length_le_of_follow? {v x : Value} {path : List String}
    (h : v.follow? path = some x) : path.length ≤ v.nesting := by
  induction path generalizing v with
  | nil => exact Nat.zero_le _
  | cons name path ih =>
      rw [follow?, Option.bind_eq_some_iff] at h
      obtain ⟨w, hw, hx⟩ := h
      have hmem : w ∈ v.elements := snd_mem_elements (Members.mem_of_get? hw)
      have hlt := nesting_lt_of_mem_elements hmem
      have hle := ih hx
      rw [List.length_cons]
      omega

end Value

/-! ## Issues at their places -/

/-- A problem quotes the value, or gives the number of its entries. -/
def Problem.IsAbout (problem : Problem) (x : Value) : Prop :=
  match problem with
  | .countMismatch fields _ => x.isContainer = true ∧ fields = x.entries.length
  | .valueMismatch y _ => y = x
  | .elementMismatch y _ => y = x
  | .undeclared => True
  | .malformed _ _ => True

namespace Issue

theorem message_countMismatch (p : FieldPath) (fields declared : Nat) :
    message ⟨p, .countMismatch fields declared⟩ =
      "Number of JSON fields (" ++ Decimal.natText fields ++
        ") does not match the number of declared field types (" ++ Decimal.natText declared ++
        ") " ++ levelText p := rfl

theorem message_valueMismatch (p : FieldPath) (x : Value) (expected : String) :
    message ⟨p, .valueMismatch x expected⟩ =
      "Value " ++ x.text ++ " of " ++ (if p.isRoot then "the root" else "field " ++ ticked p) ++
        " cannot be converted to type " ++ expected ++ "!" := rfl

theorem message_elementMismatch (p : FieldPath) (x : Value) (expected : String) :
    message ⟨p, .elementMismatch x expected⟩ =
      "Value " ++ x.text ++ " of array " ++ ticked p ++ " cannot be converted to type " ++
        expected ++ "!" := rfl

/-- The message prints the value, or the number of its entries. -/
structure Prints (i : Issue) (x : Value) : Prop where
  value : i.code = .fieldValueMismatch → ∃ expected, i.message =
    "Value " ++ x.text ++ " of " ++
      (if i.path.isRoot then "the root" else "field " ++ ticked i.path) ++
      " cannot be converted to type " ++ expected ++ "!"
  element : i.code = .arrayElementMismatch → ∃ expected, i.message =
    "Value " ++ x.text ++ " of array " ++ ticked i.path ++ " cannot be converted to type " ++
      expected ++ "!"
  count : i.code = .fieldCountMismatch → x.isContainer = true ∧ ∃ declared, i.message =
    "Number of JSON fields (" ++ Decimal.natText x.entries.length ++
      ") does not match the number of declared field types (" ++ Decimal.natText declared ++
      ") " ++ levelText i.path

theorem prints_of_isAbout {i : Issue} {x : Value} (h : i.problem.IsAbout x) : i.Prints x := by
  obtain ⟨p, problem⟩ := i
  cases problem with
  | countMismatch fields declared =>
      obtain ⟨hcontainer, rfl⟩ := h
      exact ⟨nofun, nofun, fun _ => ⟨hcontainer, declared, message_countMismatch ..⟩⟩
  | undeclared => exact ⟨nofun, nofun, nofun⟩
  | malformed defect raw => cases defect <;> exact ⟨nofun, nofun, nofun⟩
  | valueMismatch y expected =>
      obtain rfl : y = x := h
      exact ⟨fun _ => ⟨expected, message_valueMismatch ..⟩, nofun, nofun⟩
  | elementMismatch y expected =>
      obtain rfl : y = x := h
      exact ⟨nofun, fun _ => ⟨expected, message_elementMismatch ..⟩, nofun⟩

end Issue

namespace Validation

/-- Issues of a value at `p`: their paths go on from `p` to what they are about, and are
all different. -/
structure Located (p : FieldPath) (v : Value) (issues : List Issue) : Prop where
  leads : ∀ i ∈ issues, ∃ path x, i.path.segments = p.segments ++ path ∧
    v.follow? path = some x ∧ i.problem.IsAbout x
  apart : (issues.map Issue.path).Nodup

variable {p q : FieldPath} {v : Value} {issues : List Issue}

theorem Located.nil : Located p v [] :=
  ⟨by simp, List.nodup_nil⟩

theorem Located.single {problem : Problem} (h : problem.IsAbout v) :
    Located p v [⟨p, problem⟩] := by
  refine ⟨?_, List.nodup_singleton p⟩
  intro i hi
  rw [List.mem_singleton] at hi
  subst hi
  exact ⟨[], v, (List.append_nil _).symm, rfl, h⟩

theorem Located.segments_of_child {name : String} (h : Located (p.child name) v issues)
    (hq : q ∈ issues.map Issue.path) :
    ∃ path, q.segments = p.segments ++ name :: path := by
  obtain ⟨i, hi, rfl⟩ := List.mem_map.mp hq
  obtain ⟨path, -, hpath, -⟩ := h.leads i hi
  exact ⟨path, by rw [hpath, FieldPath.child, List.append_assoc, List.singleton_append]⟩

section Level

variable {g : String × Value → List Issue} (hnames : (Members.names v.entries).Nodup)
  (hg : ∀ e ∈ v.entries, Located (p.child e.1) e.2 (g e))

include hnames hg

theorem located_flatMap_entries : Located p v (v.entries.flatMap g) := by
  constructor
  · intro i hi
    obtain ⟨e, he, hi⟩ := List.mem_flatMap.mp hi
    obtain ⟨path, x, hpath, hx, habout⟩ := (hg e he).leads i hi
    refine ⟨e.1 :: path, x, ?_, ?_, habout⟩
    · rw [hpath, FieldPath.child, List.append_assoc, List.singleton_append]
    · rw [follow?_cons_of_mem hnames he]
      exact hx
  · rw [List.map_flatMap]
    apply List.pairwise_flatMap.mpr
    refine ⟨fun e he => (hg e he).apart, ?_⟩
    apply (List.pairwise_map.mp hnames).imp_of_mem
    intro e f he hf hne q hq r hr hqr
    obtain ⟨path, hpath⟩ := (hg e he).segments_of_child hq
    obtain ⟨path', hpath'⟩ := (hg f hf).segments_of_child hr
    rw [← hqr, hpath, List.append_cancel_left_eq, List.cons.injEq] at hpath'
    exact hne hpath'.1

theorem located_checkCount_append (hv : v.isContainer = true) (schema : Schema) :
    Located p v (checkCount p v schema ++ v.entries.flatMap g) := by
  have hentries := located_flatMap_entries hnames hg
  unfold checkCount
  split
  · exact hentries
  · have hcount : Problem.IsAbout (.countMismatch v.entries.length schema.length) v := ⟨hv, rfl⟩
    refine ⟨List.forall_mem_append.mpr ⟨(Located.single hcount).leads, hentries.leads⟩, ?_⟩
    rw [List.singleton_append, List.map_cons, List.nodup_cons]
    refine ⟨?_, hentries.apart⟩
    intro hp
    rw [List.map_flatMap, List.mem_flatMap] at hp
    obtain ⟨e, he, hp⟩ := hp
    obtain ⟨path, hpath⟩ := (hg e he).segments_of_child hp
    have hself : p.segments = p.segments ++ e.1 :: path := hpath
    simp at hself

end Level

/-! ## The walk -/

theorem located_checkScalar {tag : ScalarTag} {problem : Value → String → Problem}
    (h : (problem v tag.name).IsAbout v) : Located p v (checkScalar p v tag problem) := by
  unfold checkScalar
  split
  · exact Located.nil
  · exact Located.single h

theorem located_checkElement {d : Descriptor} (h : Located p v (checkField .indexed p v d)) :
    Located p v (checkElement .indexed p v d) := by
  cases d with
  | scalar tag => exact located_checkScalar rfl
  | _ => exact h

theorem located_checkEntry {schema : Schema} {e : String × Value}
    (h : ∀ d, Located (p.child e.1) e.2 (checkField .indexed (p.child e.1) e.2 d)) :
    Located (p.child e.1) e.2 (checkEntry .indexed p schema e) := by
  unfold checkEntry
  split
  · exact h _
  · exact Located.single trivial

theorem checkElements_indexed (p : FieldPath) (index : Nat) (xs : List Value) (d : Descriptor) :
    checkElements .indexed p index xs d =
      (indexed index xs).flatMap fun e => checkElement .indexed (p.child e.1) e.2 d := by
  induction xs generalizing index with
  | nil => rw [checkElements_nil, indexed, List.flatMap_nil]
  | cons x xs ih =>
      rw [checkElements_cons, ih, indexed, List.flatMap_cons]
      rfl

theorem located_checkField (hdistinct : v.DistinctNames) (p : FieldPath) (d : Descriptor) :
    Located p v (checkField .indexed p v d) := by
  induction v using elements_induction generalizing p d with
  | step v ih =>
      obtain ⟨hnames, helements⟩ := hdistinct.entries
      have hvalue : ∀ e ∈ v.entries, ∀ q d, Located q e.2 (checkField .indexed q e.2 d) := by
        intro e he q d
        have hmem := snd_mem_elements he
        exact ih e.2 hmem (helements e.2 hmem) q d
      cases d with
      | scalar tag =>
          rw [checkField_scalar]
          exact located_checkScalar rfl
      | map schema =>
          rw [checkField_map]
          split
          · rename_i hshape
            apply located_checkCount_append hnames _ (isContainer_of_isMapping hshape)
            exact fun e he => located_checkEntry (hvalue e he _)
          · exact Located.single rfl
      | array element =>
          rw [checkField_array]
          split
          · rename_i hshape
            rw [checkElements_indexed, ← entries_of_isSequence hshape]
            apply located_flatMap_entries hnames
            exact fun e he => located_checkElement (hvalue e he _ element)
          · exact Located.single rfl
      | malformed defect raw =>
          rw [checkField_malformed]
          exact Located.single trivial

theorem located_validate (hdistinct : v.DistinctNames) (schema : Schema) :
    Located .root v (validate .indexed v schema) := by
  obtain ⟨hnames, helements⟩ := hdistinct.entries
  rw [validate_eq]
  split
  · rename_i hcontainer
    apply located_checkCount_append hnames _ hcontainer
    intro e he
    apply located_checkEntry
    exact located_checkField (helements e.2 (snd_mem_elements he)) _
  · exact Located.single rfl

end Validation

open Validation

/-- With elements placed by index, the path of every issue leads from the root of the
document to the value that its message prints, or whose entries it counts.  It has no more
names than the document has levels, and no other issue has the same path.  A tree has to
have distinct names for that; a text always decodes to such a tree. -/
theorem indexed_paths_lead_apart {v : Value} (hdistinct : v.DistinctNames) (schema : Schema) :
    (∀ i ∈ validate .indexed v schema, i.path.segments.length ≤ v.depth ∧
      ∃ x, v.follow? i.path.segments = some x ∧ i.problem.IsAbout x ∧ i.Prints x) ∧
    ((validate .indexed v schema).map Issue.path).Nodup := by
  have hlocated := located_validate hdistinct schema
  refine ⟨fun i hi => ?_, hlocated.apart⟩
  obtain ⟨path, x, hpath, hx, habout⟩ := hlocated.leads i hi
  have hroot : i.path.segments = path := hpath
  rw [hroot, depth_eq_nesting]
  exact ⟨length_le_of_follow? hx, x, hx, habout, Issue.prints_of_isAbout habout⟩

theorem indexed_paths_lead_apart_nested_arrays :
    let v : Value := .mapping [("rows", .mapping [("0", .sequence [.integer 1, .string "x"]),
      ("1", .sequence [.string "y"])]), ("0", .null)]
    let schema : Schema := [("rows", .array (.array (.scalar .int))), ("0", .map []),
      ("absent", .scalar .phone)]
    let issues := validate .indexed v schema
    v.DistinctNames ∧
      issues.map (fun i => i.path.segments) = [[], ["rows", "0", "1"], ["rows", "1", "0"], ["0"]] ∧
      issues.map Issue.message =
        ["Number of JSON fields (2) does not match the number of declared field types (3)" ++
            " at the root",
          "Value \"x\" of array `rows:0:1` cannot be converted to type INT!",
          "Value \"y\" of array `rows:1:0` cannot be converted to type INT!",
          "Value null of field `0` cannot be converted to type MAP!"] ∧
      (issues.map Issue.path).Nodup ∧
      ∀ i ∈ issues, i.path.segments.length ≤ 3 ∧
        ∃ x, v.follow? i.path.segments = some x ∧ i.problem.IsAbout x ∧ i.Prints x := by
  intro v schema issues
  have hdecode : Value.decode
      "\x7b\"rows\":\x7b\"0\":[1,\"x\"],\"1\":[\"y\"]\x7d,\"0\":null\x7d" = .ok v := by
        decide +kernel
  have hdistinct : v.DistinctNames := distinctNames_of_decode hdecode
  have hdepth : v.depth = 3 := by decide +kernel
  have hplaces := indexed_paths_lead_apart hdistinct schema
  rw [hdepth] at hplaces
  exact ⟨hdistinct, by decide +kernel, by decide +kernel, hplaces.2, hplaces.1⟩

end SchemaSieve
