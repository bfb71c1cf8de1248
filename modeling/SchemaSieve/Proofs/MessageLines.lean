import SchemaSieve.Proofs.DecidableEquality
import SchemaSieve.Proofs.Lines
import SchemaSieve.Proofs.Policies

/-!
# Lines of a failure's message

The message of a failure is made of a line for each title and each issue.  All that an issue
quotes is on one line, values and fragments with every line feed escaped, but the names
of its path are written as they are.  So its message has as many line feeds as its path, and
only the names of a document can add lines to the message of its failure.
-/

namespace SchemaSieve

open Text Value Validation

/-! ## The message of one issue -/

def Problem.NamesType (problem : Problem) : Prop :=
  match problem with
  | .valueMismatch _ type | .elementMismatch _ type => type ∈ tagNames.map Prod.snd
  | .countMismatch _ _ | .undeclared | .malformed _ _ => True

theorem ScalarTag.name_mem_tagNames (tag : ScalarTag) : tag.name ∈ tagNames.map Prod.snd := by
  cases tag <;> decide

theorem map_mem_tagNames : "MAP" ∈ tagNames.map Prod.snd := by decide

theorem array_mem_tagNames : "ARRAY" ∈ tagNames.map Prod.snd := by decide

namespace FieldPath

theorem text_of_isRoot {p : FieldPath} (h : p.isRoot = true) : p.text = "" := by
  rw [isRoot, List.isEmpty_iff] at h
  rw [text, h]
  rfl

theorem oneLine_text {p : FieldPath} (h : ∀ s ∈ p.segments, OneLine s) : OneLine p.text := by
  obtain ⟨segments⟩ := p
  induction segments with
  | nil => decide
  | cons s segments ih =>
      obtain ⟨hs, hsegments⟩ := List.forall_mem_cons.mp h
      cases segments with
      | nil =>
          rw [text, String.intercalate_singleton]
          exact hs
      | cons t segments =>
          rw [text, String.intercalate_cons_cons, oneLine_append, oneLine_append]
          exact ⟨⟨hs, by decide⟩, ih hsegments⟩

end FieldPath

namespace Issue

theorem lineFeeds_ticked (p : FieldPath) : lineFeeds (ticked p) = lineFeeds p.text := by
  rw [ticked, lineFeeds_append_oneLine (by decide), lineFeeds_oneLine_append (by decide)]

theorem lineFeeds_levelText (p : FieldPath) : lineFeeds (levelText p) = lineFeeds p.text := by
  unfold levelText
  split
  · rw [FieldPath.text_of_isRoot ‹_›]
    decide
  · rw [lineFeeds_oneLine_append (by decide), lineFeeds_ticked]

theorem lineFeeds_placeText (p : FieldPath) : lineFeeds (placeText p) = lineFeeds p.text := by
  unfold placeText
  split
  · rw [FieldPath.text_of_isRoot ‹_›]
    decide
  · rw [lineFeeds_oneLine_append (by decide), lineFeeds_ticked]

theorem lineFeeds_described (p : FieldPath) (raw : Json) {before after : String}
    (hbefore : OneLine before) (hafter : OneLine after) :
    lineFeeds (before ++ ticked p ++ after ++ Fragment.render raw) = lineFeeds p.text := by
  rw [lineFeeds_append_oneLine (Fragment.oneLine_render raw), lineFeeds_append_oneLine hafter,
    lineFeeds_oneLine_append hbefore, lineFeeds_ticked]

theorem lineFeeds_malformedText (p : FieldPath) (defect : Defect) (raw : Json) :
    lineFeeds (malformedText p defect raw) = lineFeeds p.text := by
  have hscalar : OneLine scalarHint := oneLine_ofList.mpr (by decide)
  have hnested : OneLine nestedHint := oneLine_ofList.mpr (by decide)
  have hmap : OneLine mapExample := oneLine_ofList.mpr (by decide)
  have harray : OneLine arrayExample := oneLine_ofList.mpr (by decide)
  cases defect with
  | unknownScalar =>
      unfold malformedText
      rw [lineFeeds_append_oneLine hscalar, lineFeeds_append_oneLine (by decide)]
      exact lineFeeds_described p raw (by decide) (by decide)
  | nested =>
      unfold malformedText
      rw [lineFeeds_append_oneLine hnested, lineFeeds_append_oneLine (by decide),
        lineFeeds_append_oneLine harray, lineFeeds_append_oneLine (by decide),
        lineFeeds_append_oneLine hmap, lineFeeds_append_oneLine (oneLine_ofList.mpr (by decide))]
      exact lineFeeds_described p raw (by decide) (by decide)
  | map =>
      unfold malformedText
      rw [lineFeeds_append_oneLine hnested, lineFeeds_append_oneLine (by decide),
        lineFeeds_append_oneLine hmap, lineFeeds_append_oneLine (by decide)]
      exact lineFeeds_described p raw (by decide) (by decide)
  | array =>
      unfold malformedText
      rw [lineFeeds_append_oneLine hnested, lineFeeds_append_oneLine (by decide),
        lineFeeds_append_oneLine harray, lineFeeds_append_oneLine (by decide)]
      exact lineFeeds_described p raw (by decide) (by decide)

theorem lineFeeds_message {i : Issue} (h : i.problem.NamesType) :
    lineFeeds i.message = lineFeeds i.path.text := by
  obtain ⟨path, problem⟩ := i
  unfold message
  cases problem with
  | countMismatch fields declared =>
      have hfields := Decimal.oneLine_natText fields
      have hdeclared := Decimal.oneLine_natText declared
      rw [lineFeeds_oneLine_append, lineFeeds_levelText]
      simp only [oneLine_append]
      exact ⟨⟨⟨⟨by decide, hfields⟩, oneLine_ofList.mpr (by decide)⟩, hdeclared⟩, by decide⟩
  | undeclared =>
      rw [lineFeeds_append_oneLine (by decide), lineFeeds_oneLine_append (by decide),
        lineFeeds_ticked]
  | malformed defect raw => exact lineFeeds_malformedText path defect raw
  | valueMismatch v type =>
      rw [lineFeeds_append_oneLine (by decide),
        lineFeeds_append_oneLine (oneLine_of_mem_tagNames type h),
        lineFeeds_append_oneLine (by decide), lineFeeds_oneLine_append, lineFeeds_placeText]
      simp only [oneLine_append]
      exact ⟨⟨by decide, v.oneLine_text⟩, by decide⟩
  | elementMismatch v type =>
      rw [lineFeeds_append_oneLine (by decide),
        lineFeeds_append_oneLine (oneLine_of_mem_tagNames type h),
        lineFeeds_append_oneLine (by decide), lineFeeds_oneLine_append, lineFeeds_ticked]
      simp only [oneLine_append]
      exact ⟨⟨by decide, v.oneLine_text⟩, by decide⟩

theorem endsPlainly_malformedText (p : FieldPath) (defect : Defect) (raw : Json) :
    EndsPlainly (malformedText p defect raw) := by
  have hscalar : EndsPlainly scalarHint := endsPlainly_ofList rfl (by decide)
  have hnested : EndsPlainly nestedHint := endsPlainly_ofList rfl (by decide)
  cases defect with
  | unknownScalar => exact hscalar.append _
  | nested => exact hnested.append _
  | map => exact hnested.append _
  | array => exact hnested.append _

theorem endsPlainly_message (i : Issue) : EndsPlainly i.message := by
  obtain ⟨path, problem⟩ := i
  unfold message
  cases problem with
  | countMismatch fields declared =>
      refine EndsPlainly.append ?_ _
      unfold levelText
      split
      · exact endsPlainly_ofList rfl (by decide)
      · refine (EndsPlainly.append ?_ _).append _
        exact endsPlainly_ofList rfl (by decide)
  | undeclared => exact (endsPlainly_ofList rfl (by decide)).append _
  | malformed defect raw => exact endsPlainly_malformedText path defect raw
  | valueMismatch v type => exact (endsPlainly_ofList rfl (by decide)).append _
  | elementMismatch v type => exact (endsPlainly_ofList rfl (by decide)).append _

end Issue

/-! ## Names on the way to an issue -/

inductive Value.HasName (name : String) : Value → Prop
  | here {ms : List (String × Value)} (named : name ∈ Members.names ms) :
      HasName name (.mapping ms)
  | inside {v x : Value} (element : x ∈ v.elements) (named : HasName name x) : HasName name v

theorem Value.hasName_of_mem_entries {v : Value} {e : String × Value} (h : e ∈ v.entries) :
    v.HasName e.1 ∨ ∃ k, e.1 = Decimal.natText k := by
  cases v with
  | mapping ms => exact .inl (.here (List.mem_map_of_mem h))
  | sequence xs =>
      have hname := List.mem_map_of_mem (f := Prod.fst) h
      rw [entries, ← Members.names, names_indexed, List.mem_map] at hname
      obtain ⟨k, -, hk⟩ := hname
      exact .inr ⟨k, hk.symm⟩
  | _ => cases h

namespace Validation

/-- An issue of a value at `p`: its path goes on from `p` by names in the value and indices. -/
structure NamedIn (p : FieldPath) (v : Value) (i : Issue) : Prop where
  type : i.problem.NamesType
  path : ∃ path, i.path.segments = p.segments ++ path ∧
    ∀ s ∈ path, v.HasName s ∨ ∃ k, s = Decimal.natText k

variable {p : FieldPath} {v x : Value} {i : Issue}

theorem namedIn_here {problem : Problem} (h : problem.NamesType) :
    ∀ i ∈ [⟨p, problem⟩], NamedIn p v i := by
  intro i hi
  rw [List.mem_singleton.mp hi]
  exact ⟨h, [], (List.append_nil _).symm, by simp⟩

theorem NamedIn.element (h : NamedIn p x i) (hx : x ∈ v.elements) : NamedIn p v i := by
  obtain ⟨path, hpath, hnames⟩ := h.path
  exact ⟨h.type, path, hpath, fun s hs => (hnames s hs).imp_left (.inside hx)⟩

theorem NamedIn.child {name : String} (h : NamedIn (p.child name) v i)
    (hname : v.HasName name ∨ ∃ k, name = Decimal.natText k) : NamedIn p v i := by
  obtain ⟨path, hpath, hnames⟩ := h.path
  refine ⟨h.type, name :: path, ?_, List.forall_mem_cons.mpr ⟨hname, hnames⟩⟩
  rw [hpath, FieldPath.child, List.append_assoc, List.singleton_append]

theorem namedIn_checkCount {schema : Schema} : ∀ i ∈ checkCount p v schema, NamedIn p v i := by
  unfold checkCount
  split
  · simp
  · exact namedIn_here trivial

theorem namedIn_checkScalar {tag : ScalarTag} {problem : Value → String → Problem}
    (h : (problem v tag.name).NamesType) :
    ∀ i ∈ checkScalar p v tag problem, NamedIn p v i := by
  unfold checkScalar
  split
  · simp
  · exact namedIn_here h

section Walk

variable {mode : ElementPaths}

theorem namedIn_checkEntry {schema : Schema} {e : String × Value}
    (hx : ∀ p d, ∀ i ∈ checkField mode p e.2 d, NamedIn p e.2 i) (he : e ∈ v.entries) :
    ∀ i ∈ checkEntry mode p schema e, NamedIn p v i := by
  intro i hi
  apply NamedIn.child _ (hasName_of_mem_entries he)
  unfold checkEntry at hi
  split at hi
  · exact (hx _ _ i hi).element (snd_mem_elements he)
  · refine namedIn_here ?_ i hi
    exact trivial

theorem namedIn_checkElement {d : Descriptor}
    (hx : ∀ p d, ∀ i ∈ checkField mode p x d, NamedIn p x i) :
    ∀ i ∈ checkElement mode p x d, NamedIn p x i := by
  cases d with
  | scalar tag =>
      rw [checkElement]
      exact namedIn_checkScalar tag.name_mem_tagNames
  | _ => exact hx p _

theorem namedIn_elementPath {index : Nat} (h : NamedIn (elementPath mode p index) v i) :
    NamedIn p v i := by
  cases mode with
  | shared => exact h
  | indexed => exact h.child (.inr ⟨index, rfl⟩)

theorem namedIn_checkElements {d : Descriptor} {xs : List Value} {index : Nat}
    (hxs : ∀ x ∈ xs, x ∈ v.elements ∧ ∀ p d, ∀ i ∈ checkField mode p x d, NamedIn p x i) :
    ∀ i ∈ checkElements mode p index xs d, NamedIn p v i := by
  induction xs generalizing index with
  | nil => simp
  | cons x xs ih =>
      obtain ⟨⟨hx, hwalk⟩, hxs⟩ := List.forall_mem_cons.mp hxs
      rw [checkElements_cons]
      refine List.forall_mem_append.mpr ⟨fun i hi => ?_, ih hxs⟩
      exact namedIn_elementPath ((namedIn_checkElement hwalk i hi).element hx)

theorem namedIn_level {schema : Schema}
    (hv : ∀ x ∈ v.elements, ∀ p d, ∀ i ∈ checkField mode p x d, NamedIn p x i) :
    ∀ i ∈ checkCount p v schema ++ v.entries.flatMap (checkEntry mode p schema),
      NamedIn p v i := by
  refine List.forall_mem_append.mpr ⟨namedIn_checkCount, fun i hi => ?_⟩
  obtain ⟨e, he, hi⟩ := List.mem_flatMap.mp hi
  exact namedIn_checkEntry (hv e.2 (snd_mem_elements he)) he i hi

theorem namedIn_checkField (v : Value) :
    ∀ p d, ∀ i ∈ checkField mode p v d, NamedIn p v i := by
  induction v using elements_induction with
  | step v ih =>
      intro p d
      cases d with
      | scalar tag =>
          rw [checkField_scalar]
          exact namedIn_checkScalar tag.name_mem_tagNames
      | map schema =>
          rw [checkField_map]
          split
          · exact namedIn_level ih
          · exact namedIn_here map_mem_tagNames
      | array element =>
          rw [checkField_array]
          split
          · exact namedIn_checkElements fun x hx => ⟨hx, ih x hx⟩
          · exact namedIn_here array_mem_tagNames
      | malformed defect raw =>
          rw [checkField_malformed]
          exact namedIn_here trivial

theorem namedIn_validate (schema : Schema) : ∀ i ∈ validate mode v schema, NamedIn .root v i := by
  rw [validate_eq]
  split
  · exact namedIn_level fun x _ => namedIn_checkField x
  · exact namedIn_here map_mem_tagNames

end Walk

end Validation

/-! ## The message of a failure -/

namespace Failure

def titled (title : String) : List Issue → List String
  | [] => []
  | issues => title :: issues.map Issue.message

def outline (f : Failure) : List String :=
  titled "Warnings:" f.warnings ++ titled "Errors:" f.errors

theorem titled_cons (title : String) (i : Issue) (issues : List Issue) :
    titled title (i :: issues) = title :: (i :: issues).map Issue.message := rfl

theorem block_eq_join (title : String) (issues : List Issue) :
    block title issues = String.join ((titled title issues).map (· ++ "\n")) := by
  cases issues with
  | nil => rfl
  | cons i issues =>
      rw [titled_cons, List.map_cons, String.join_cons, List.map_map]
      rfl

theorem message_eq_join (f : Failure) :
    f.message = String.join (f.outline.map (· ++ "\n")) := by
  rw [message, block_eq_join, block_eq_join, outline, List.map_append, String.join_append]

theorem forall_mem_titled {P : String → Prop} {title : String} {issues : List Issue}
    (htitle : P title) (hissues : ∀ i ∈ issues, P i.message) : ∀ s ∈ titled title issues, P s := by
  cases issues with
  | nil => simp [titled]
  | cons i issues =>
      rw [titled_cons]
      exact List.forall_mem_cons.mpr ⟨htitle, List.forall_mem_map.mpr hissues⟩

variable {f : Failure}

theorem forall_mem_outline {P : String → Prop} (hwarnings : P "Warnings:") (herrors : P "Errors:")
    (hissues : ∀ i ∈ f.issues, P i.message) : ∀ s ∈ f.outline, P s := by
  obtain ⟨hw, he⟩ := List.forall_mem_append.mp hissues
  exact List.forall_mem_append.mpr
    ⟨forall_mem_titled hwarnings hw, forall_mem_titled herrors he⟩

theorem sum_titled {title : String} {issues : List Issue} (htitle : OneLine title)
    (hissues : ∀ i ∈ issues, i.problem.NamesType) :
    ((titled title issues).map lineFeeds).sum =
      (issues.map fun i => lineFeeds i.path.text).sum := by
  cases issues with
  | nil => rfl
  | cons i issues =>
      rw [titled_cons, List.map_cons, List.sum_cons, lineFeeds_eq_zero_iff.mpr htitle,
        Nat.zero_add, List.map_map]
      congr 1
      exact List.map_congr_left fun j hj => Issue.lineFeeds_message (hissues j hj)

section Lines

variable (hissues : ∀ i ∈ f.issues, i.problem.NamesType)

include hissues

theorem length_lines_message :
    (lines f.message).length =
      f.outline.length + (f.issues.map fun i => lineFeeds i.path.text).sum := by
  obtain ⟨hw, he⟩ := List.forall_mem_append.mp hissues
  rw [message_eq_join, length_lines_join, outline, issues, List.map_append, List.map_append,
    List.sum_append, List.sum_append, sum_titled (by decide) hw, sum_titled (by decide) he]

theorem lines_message_iff :
    lines f.message = f.outline ↔ ∀ i ∈ f.issues, OneLine i.path.text := by
  constructor
  · intro h i hi
    have hlength := length_lines_message hissues
    rw [h, Nat.left_eq_add, List.sum_eq_zero_iff_forall_eq_nat, List.forall_mem_map] at hlength
    exact lineFeeds_eq_zero_iff.mp (hlength i hi)
  · intro h
    rw [message_eq_join]
    apply lines_join_of_oneLine
    · refine forall_mem_outline (by decide) (by decide) fun i hi => ?_
      rw [← lineFeeds_eq_zero_iff, Issue.lineFeeds_message (hissues i hi), lineFeeds_eq_zero_iff]
      exact h i hi
    · refine forall_mem_outline ?_ ?_ fun i _ => Issue.endsPlainly_message i
      · exact endsPlainly_ofList rfl (by decide)
      · exact endsPlainly_ofList rfl (by decide)

end Lines

end Failure

theorem Validation.NamedIn.oneLine {v : Value} {i : Issue} (h : NamedIn .root v i)
    (hnames : ∀ name, v.HasName name → OneLine name) : OneLine i.path.text := by
  obtain ⟨path, hpath, hsegments⟩ := h.path
  apply FieldPath.oneLine_text
  rw [hpath]
  intro s hs
  rcases hsegments s hs with hname | ⟨k, rfl⟩
  · exact hnames s hname
  · exact Decimal.oneLine_natText k

theorem namedIn_of_rejected {o : Options} {v : Value} {schema : Schema} {f : Failure}
    (h : sanitizeValue o v schema = .error (.rejected f)) :
    ∀ i ∈ f.issues, NamedIn .root v i := fun i hi =>
  namedIn_validate schema i ((rejected_carries_issues h).1.mem_iff.mp hi)

/-- The message of a rejected document has its titles and its issues as lines, plus one
line for each line feed in the path of an issue.  So an issue is a line of its own unless its
path has a line feed, and only the names in the document can bring one in. -/
theorem lines_of_rejected_message {o : Options} {v : Value} {schema : Schema} {f : Failure}
    (h : sanitizeValue o v schema = .error (.rejected f)) :
    (lines f.message).length =
        f.outline.length + (f.issues.map fun i => lineFeeds i.path.text).sum ∧
      (lines f.message = f.outline ↔ ∀ i ∈ f.issues, OneLine i.path.text) ∧
      ((∀ name, v.HasName name → OneLine name) → lines f.message = f.outline) := by
  have hnamed := namedIn_of_rejected h
  have htypes := fun i hi => (hnamed i hi).type
  have hlines := Failure.lines_message_iff htypes
  refine ⟨Failure.length_lines_message htypes, hlines, fun hnames => ?_⟩
  exact hlines.mpr fun i hi => (hnamed i hi).oneLine hnames

theorem lines_of_rejected_message_quoted_value :
    let v : Value := .mapping [("a", .string "1\n2"), ("b", .null)]
    let schema : Schema := [("a", .scalar .int)]
    let f : Failure := .ofIssues
      [⟨.root, .countMismatch 2 1⟩, ⟨⟨["a"]⟩, .valueMismatch (.string "1\n2") "INT"⟩,
        ⟨⟨["b"]⟩, .undeclared⟩]
    sanitizeValue {} v schema = .error (.rejected f) ∧ lines f.message = f.outline ∧
      f.outline.length = 5 := by
  intro v schema f
  have hrun : sanitizeValue {} v schema = .error (.rejected f) := by decide +kernel
  have hpaths : ∀ i ∈ f.issues, OneLine i.path.text := by decide
  exact ⟨hrun, (lines_of_rejected_message hrun).2.1.mpr hpaths, rfl⟩

theorem message_line_split_by_name :
    let v : Value := .mapping [("a\nb", .integer 1)]
    let f : Failure := .ofIssues [⟨.root, .countMismatch 1 0⟩, ⟨⟨["a\nb"]⟩, .undeclared⟩]
    sanitizeValue {} v [] = .error (.rejected f) ∧
      (f.warnings.map Issue.message, f.errors.map Issue.message) =
        (["Number of JSON fields (1) does not match the number of declared field types (0) " ++
          "at the root"], ["Type of field `a\nb` is not declared!"]) ∧
      f.outline.length = 4 ∧ (lines f.message).length = 5 := by
  intro v f
  have hrun : sanitizeValue {} v [] = .error (.rejected f) := by decide +kernel
  have htypes : ∀ i ∈ f.issues, i.problem.NamesType := fun i hi =>
    (namedIn_of_rejected hrun i hi).type
  refine ⟨hrun, by decide +kernel, rfl, ?_⟩
  rw [Failure.length_lines_message htypes]
  rfl

end SchemaSieve
