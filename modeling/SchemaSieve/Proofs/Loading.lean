import SchemaSieve.Proofs.StoredResults

/-!
# Loading a batch

A batch is loaded as a whole or not at all.  It fails where its configuration, its schema, one of
its patterns or one of its documents does, whatever the others are.  When it is loaded each
outcome comes from the text of its document alone.
-/

namespace SchemaSieve.Command

variable {fs : Files} {s : Settings} {o : Options} {schema : Schema} {pointer : Option String}
  {input path text : String}

/-! ## Inputs -/

inductive Denotes (fs : Files) (input : String) : String → Prop
  | plain (plain : Glob.Pattern.isWild input = false) : Denotes fs input input
  | found {p : Glob.Pattern} {path : String} (wild : Glob.Pattern.isWild input = true)
      (pattern : Glob.Pattern.parse input = .ok p) (mem : path ∈ p.paths fs) :
      Denotes fs input path

theorem inputPaths_of_plain (h : Glob.Pattern.isWild input = false) :
    inputPaths fs input = .ok [input] := by
  simp [inputPaths, h]

theorem inputPaths_of_wild {paths : List String} (h : Glob.Pattern.isWild input = true) :
    inputPaths fs input = .ok paths ↔
      ∃ p, Glob.Pattern.parse input = .ok p ∧ p.paths fs ≠ [] ∧ p.paths fs = paths := by
  rw [inputPaths, if_pos h]
  cases Glob.Pattern.parse input with
  | error e => simp
  | ok p => cases hpaths : p.paths fs <;> simp [hpaths]

theorem mem_iff_denotes {paths : List String} (h : inputPaths fs input = .ok paths) :
    path ∈ paths ↔ Denotes fs input path := by
  cases hwild : Glob.Pattern.isWild input with
  | false =>
      rw [inputPaths_of_plain hwild] at h
      cases h
      rw [List.mem_singleton]
      constructor
      · rintro rfl
        exact .plain hwild
      · rintro (- | ⟨hwild', -, -⟩)
        · rfl
        · simp [hwild] at hwild'
  | true =>
      obtain ⟨p, hparse, -, rfl⟩ := (inputPaths_of_wild hwild).mp h
      constructor
      · exact .found hwild hparse
      · rintro (hplain | ⟨-, hparse', hmem⟩)
        · simp [hwild] at hplain
        · rw [hparse] at hparse'
          cases hparse'
          exact hmem

theorem paths_eq_ok_iff {paths : List String} :
    s.paths fs = .ok paths ↔
      ∃ parts, List.Forall₂ (fun input part => inputPaths fs input = .ok part) s.inputs parts ∧
        parts.flatten = paths := by
  rw [Settings.paths, ← exists_congr fun _ => and_congr_left' mapM_eq_ok_iff]
  cases s.inputs.mapM (inputPaths fs) <;> simp [bind, Except.bind]

theorem exists_paths_iff :
    (∃ paths, s.paths fs = .ok paths) ↔
      ∀ input ∈ s.inputs, ∃ part, inputPaths fs input = .ok part := by
  rw [← exists_forall₂_iff]
  simp only [paths_eq_ok_iff]
  constructor
  · rintro ⟨paths, parts, hparts, -⟩
    exact ⟨parts, hparts⟩
  · rintro ⟨parts, hparts⟩
    exact ⟨parts.flatten, parts, hparts, rfl⟩

theorem mem_paths_iff {paths : List String} (h : s.paths fs = .ok paths) :
    path ∈ paths ↔ ∃ input ∈ s.inputs, Denotes fs input path := by
  obtain ⟨parts, hparts, rfl⟩ := paths_eq_ok_iff.mp h
  rw [List.mem_flatten]
  constructor
  · rintro ⟨part, hpart, hpath⟩
    obtain ⟨input, hinput, hinputPaths⟩ := exists_mem_left_of_forall₂ hparts part hpart
    exact ⟨input, hinput, (mem_iff_denotes hinputPaths).mp hpath⟩
  · rintro ⟨input, hinput, hdenotes⟩
    obtain ⟨part, hpart, hinputPaths⟩ := exists_mem_right_of_forall₂ hparts input hinput
    exact ⟨part, hpart, (mem_iff_denotes hinputPaths).mpr hdenotes⟩

theorem paths_of_plain (h : Glob.Pattern.isWild path = false) :
    Settings.paths { s with inputs := [path] } fs = .ok [path] :=
  paths_eq_ok_iff.mpr ⟨[[path]], .cons (inputPaths_of_plain h) .nil, rfl⟩

/-! ## Settings -/

theorem exists_options_iff :
    (∃ o, s.options fs = .ok o) ↔ ∀ path, s.config = some path →
      ∃ text o, fs.readText path = .ok text ∧ Options.ofConfig? text = some o := by
  rw [Settings.options]
  cases s.config with
  | none => simp [configured, bind, Except.bind]
  | some path =>
      cases hread : fs.readText path with
      | error t => simp [configured, hread, bind, Except.bind]
      | ok text =>
          cases ho : Options.ofConfig? text <;>
            simp [configured, hread, ho, bind, Except.bind]

theorem readSchema_eq_ok_iff :
    s.readSchema fs = .ok schema ↔
      ∃ text, fs.readText s.schema = .ok text ∧ Schema.read (bytesOf text) = .ok schema := by
  rw [Settings.readSchema]
  cases fs.readText s.schema with
  | error t => simp
  | ok text => cases hschema : Schema.read (bytesOf text) <;> simp [hschema]

/-! ## Documents -/

/-- The result that a document text has, or the part of it that a pointer selects.  A text that
is no document has one too. -/
inductive ResultOf (o : Options) (schema : Schema) :
    Option String → String → Except Refusal Sanitized → Prop
  | whole (text : String) : ResultOf o schema none text (sanitize o text schema)
  | malformed {pointer text : String} {fault : Json.Fault}
      (parsed : Json.parse text = .error fault) :
      ResultOf o schema (some pointer) text (.error (.malformed (bytesOf text) fault))
  | part {pointer text : String} {j part : Json} (parsed : Json.parse text = .ok j)
      (selected : j.select? pointer = some part) :
      ResultOf o schema (some pointer) text (sanitizeValue o (.ofJson part) schema)

def SelectsNothing (pointer : Option String) (text : String) : Prop :=
  ∃ p j, pointer = some p ∧ Json.parse text = .ok j ∧ j.select? p = none

theorem resultOf_none_iff {result : Except Refusal Sanitized} :
    ResultOf o schema none text result ↔ sanitize o text schema = result := by
  constructor
  · rintro ⟨⟩
    rfl
  · rintro rfl
    exact .whole text

theorem resultOf_some_iff {p : String} {result : Except Refusal Sanitized} :
    ResultOf o schema (some p) text result ↔ sanitizePart? o text p schema = some result := by
  constructor
  · rintro (- | hparse | ⟨hparse, hselect⟩)
    · simp only [sanitizePart?, hparse]
    · simp only [sanitizePart?, hparse, hselect, Option.map_some]
  · intro h
    rw [sanitizePart?] at h
    cases hparse : Json.parse text with
    | error fault =>
        simp only [hparse] at h
        cases h
        exact .malformed hparse
    | ok j =>
        simp only [hparse] at h
        obtain ⟨part, hselect, rfl⟩ := Option.map_eq_some_iff.mp h
        exact .part hparse hselect

theorem process_eq_ok_iff {x : Outcome} :
    process fs o schema pointer path = .ok x ↔ path = x.path ∧
      ∃ text, fs.readText path = .ok text ∧ ResultOf o schema pointer text x.result := by
  obtain ⟨name, result⟩ := x
  rw [process]
  cases fs.readText path with
  | error t => simp
  | ok text =>
      cases pointer with
      | none => simp [resultOf_none_iff]
      | some p => cases hpart : sanitizePart? o text p schema <;> simp [resultOf_some_iff, hpart]

theorem exists_resultOf_iff :
    (∃ result, ResultOf o schema pointer text result) ↔ ¬ SelectsNothing pointer text := by
  constructor
  · rintro ⟨result, hresult⟩ ⟨p, j, rfl, hparse, hselect⟩
    simp [resultOf_some_iff, sanitizePart?, hparse, hselect] at hresult
  · intro h
    cases pointer with
    | none => exact ⟨_, .whole text⟩
    | some p =>
        cases hparse : Json.parse text with
        | error fault => exact ⟨_, .malformed hparse⟩
        | ok j =>
            cases hselect : j.select? p with
            | none => exact absurd ⟨p, j, rfl, hparse, hselect⟩ h
            | some part => exact ⟨_, .part hparse hselect⟩

theorem exists_process_iff :
    (∃ x, process fs o schema pointer path = .ok x) ↔
      ∃ text, fs.readText path = .ok text ∧ ¬ SelectsNothing pointer text := by
  simp only [process_eq_ok_iff, ← @exists_resultOf_iff o schema]
  constructor
  · rintro ⟨x, rfl, text, hread, hresult⟩
    exact ⟨text, hread, x.result, hresult⟩
  · rintro ⟨text, hread, result, hresult⟩
    exact ⟨⟨path, result⟩, rfl, text, hread, hresult⟩

/-! ## Batches -/

/-- What keeps a batch from being loaded. -/
inductive Unloadable (fs : Files) (s : Settings) : Prop
  | config {path : String} (given : s.config = some path)
      (unread : ¬ ∃ text o, fs.readText path = .ok text ∧ Options.ofConfig? text = some o)
  | schema (unread : ¬ ∃ text schema, fs.readText s.schema = .ok text ∧
      Schema.read (bytesOf text) = .ok schema)
  | pattern {input : String} (mem : input ∈ s.inputs) (wild : Glob.Pattern.isWild input = true)
      (unmatched : ∀ p, Glob.Pattern.parse input = .ok p → p.paths fs = [])
  | source {input path : String} (mem : input ∈ s.inputs) (denotes : Denotes fs input path)
      (unread : ∀ text, fs.readText path ≠ .ok text)
  | selection {input path text : String} (mem : input ∈ s.inputs)
      (denotes : Denotes fs input path) (read : fs.readText path = .ok text)
      (selects : SelectsNothing s.pointer text)

/-- The outcomes of a batch, each from the text that its document has. -/
structure OutcomesOf (fs : Files) (s : Settings) (o : Options) (schema : Schema)
    (outcomes : List Outcome) : Prop where
  configured : s.options fs = .ok o
  readSchema : s.readSchema fs = .ok schema
  resolved : s.paths fs = .ok (outcomes.map Outcome.path)
  results : ∀ x ∈ outcomes, ∃ text, fs.readText x.path = .ok text ∧
    ResultOf o schema s.pointer text x.result

theorem load_iff_outcomesOf {outcomes : List Outcome} :
    load fs s = .ok outcomes ↔ ∃ o schema, OutcomesOf fs s o schema outcomes := by
  simp only [load_eq_ok_iff, process_eq_ok_iff, true_and]
  constructor
  · rintro ⟨o, schema, ho, hschema, hpaths, hresults⟩
    exact ⟨o, schema, ho, hschema, hpaths, hresults⟩
  · rintro ⟨o, schema, ho, hschema, hpaths, hresults⟩
    exact ⟨o, schema, ho, hschema, hpaths, hresults⟩

theorem exists_load_iff_forall :
    (∃ outcomes, load fs s = .ok outcomes) ↔ (∃ o, s.options fs = .ok o) ∧
      (∃ schema, s.readSchema fs = .ok schema) ∧ ∃ paths, s.paths fs = .ok paths ∧
        ∀ path ∈ paths, ∃ text, fs.readText path = .ok text ∧ ¬ SelectsNothing s.pointer text := by
  constructor
  · rintro ⟨outcomes, hload⟩
    obtain ⟨o, schema, houtcomes⟩ := load_iff_outcomesOf.mp hload
    refine ⟨⟨o, houtcomes.configured⟩, ⟨schema, houtcomes.readSchema⟩, _, houtcomes.resolved, ?_⟩
    rw [List.forall_mem_map]
    intro x hx
    obtain ⟨text, hread, hresult⟩ := houtcomes.results x hx
    exact ⟨text, hread, exists_resultOf_iff.mp ⟨x.result, hresult⟩⟩
  · rintro ⟨⟨o, ho⟩, ⟨schema, hschema⟩, paths, hpaths, hdocuments⟩
    have hprocess : ∀ path ∈ paths, ∃ x, process fs o schema s.pointer path = .ok x :=
      fun path hpath => exists_process_iff.mpr (hdocuments path hpath)
    obtain ⟨outcomes, houtcomes⟩ := exists_forall₂_iff.mpr hprocess
    obtain ⟨rfl, hresults⟩ := mapM_process_eq_ok_iff.mp (mapM_eq_ok_iff.mpr houtcomes)
    exact ⟨outcomes, load_eq_ok_iff.mpr ⟨o, schema, ho, hschema, hpaths, hresults⟩⟩

theorem not_unloadable_of_load {outcomes : List Outcome} (hload : load fs s = .ok outcomes) :
    ¬ Unloadable fs s := by
  obtain ⟨hoptions, ⟨schema, hschema⟩, paths, hpaths, hdocuments⟩ :=
    exists_load_iff_forall.mp ⟨outcomes, hload⟩
  intro hunloadable
  cases hunloadable with
  | config given unread => exact unread (exists_options_iff.mp hoptions _ given)
  | schema unread =>
      obtain ⟨text, hread, htext⟩ := readSchema_eq_ok_iff.mp hschema
      exact unread ⟨text, schema, hread, htext⟩
  | pattern mem wild unmatched =>
      obtain ⟨part, hpart⟩ := exists_paths_iff.mp ⟨paths, hpaths⟩ _ mem
      obtain ⟨p, hparse, hmatched, -⟩ := (inputPaths_of_wild wild).mp hpart
      exact hmatched (unmatched p hparse)
  | source mem denotes unread =>
      have hpath := (mem_paths_iff hpaths).mpr ⟨_, mem, denotes⟩
      obtain ⟨text, hread, -⟩ := hdocuments _ hpath
      exact unread text hread
  | selection mem denotes read selects =>
      have hpath := (mem_paths_iff hpaths).mpr ⟨_, mem, denotes⟩
      obtain ⟨text, hread, hselects⟩ := hdocuments _ hpath
      rw [read] at hread
      cases hread
      exact hselects selects

theorem exists_paths_of_not_unloadable (h : ¬ Unloadable fs s) :
    ∃ paths, s.paths fs = .ok paths := by
  refine exists_paths_iff.mpr fun input hinput => ?_
  cases hwild : Glob.Pattern.isWild input with
  | false => exact ⟨_, inputPaths_of_plain hwild⟩
  | true =>
      by_contra hnone
      refine h (.pattern hinput hwild fun p hparse => ?_)
      by_contra hmatched
      exact hnone ⟨_, (inputPaths_of_wild hwild).mpr ⟨p, hparse, hmatched, rfl⟩⟩

theorem exists_load_iff :
    (∃ outcomes, load fs s = .ok outcomes) ↔ ¬ Unloadable fs s := by
  refine ⟨fun ⟨_, hload⟩ => not_unloadable_of_load hload, fun h => ?_⟩
  obtain ⟨paths, hpaths⟩ := exists_paths_of_not_unloadable h
  refine exists_load_iff_forall.mpr ⟨?_, ?_, paths, hpaths, fun path hpath => ?_⟩
  · refine exists_options_iff.mpr fun path hgiven => ?_
    by_contra hunread
    exact h (.config hgiven hunread)
  · by_contra hunread
    refine h (.schema fun ⟨text, schema, hread, htext⟩ => hunread ⟨schema, ?_⟩)
    exact readSchema_eq_ok_iff.mpr ⟨text, hread, htext⟩
  · obtain ⟨input, hinput, hdenotes⟩ := (mem_paths_iff hpaths).mp hpath
    by_cases hread : ∃ text, fs.readText path = .ok text
    · obtain ⟨text, hread⟩ := hread
      exact ⟨text, hread, fun hselects => h (.selection hinput hdenotes hread hselects)⟩
    · exact absurd (.source hinput hdenotes fun text htext => hread ⟨text, htext⟩) h

end SchemaSieve.Command
