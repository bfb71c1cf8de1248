import SchemaSieve.Command.Run
import SchemaSieve.Proofs.DecidableEquality
import SchemaSieve.Proofs.Lists
import SchemaSieve.Proofs.StoredFiles

/-!
# Results in a directory

A run that stores its results names each file by its document alone: the stem of the path, with
an ending.  Actions are carried out in the order of the documents, so what a file holds in the
end is the result for the last document of its name, and those before it are gone.
-/

namespace SchemaSieve.Command

open SchemaSieve.Path Files

theorem isName_resultName (path : String) : IsName (resultName path) := by
  have hchars : (resultName path).toList = (stem path).toList ++ ".json".toList :=
    String.toList_append
  have hlength : 5 ≤ (resultName path).toList.length := by simp [hchars]
  refine ⟨?_, ?_, fun hup => ?_⟩
  · rw [hchars, List.mem_append, not_or]
    exact ⟨slash_not_mem_stem path, by decide⟩
  · rw [isIdle, Bool.or_eq_false_iff, decide_eq_false_iff_not, decide_eq_false_iff_not]
    exact ⟨fun hempty => by simp [hempty] at hlength, fun hpoint => by simp [hpoint] at hlength⟩
  · simp [hup] at hlength

/-! ## Actions -/

namespace Action

variable {t t' : Transcript} {a : Action} {actions : List Action} {directory name text : String}
  {bytes : Bytes}

theorem perform_store_eq_ok_iff :
    (Action.store directory name text).perform t = .ok t' ↔
      ∃ made written, t.files.makeDirectories directory = .ok made ∧
        made.write directory name (bytesOf text) = .ok written ∧
          { t with files := written } = t' := by
  rw [perform]
  cases t.files.makeDirectories directory with
  | error e => simp
  | ok made => cases hwrite : made.write directory name (bytesOf text) <;> simp [hwrite]

theorem read_of_store (hname : IsName name)
    (h : (Action.store directory name text).perform t = .ok t') :
    t'.files.read (join directory name) = .ok (bytesOf text) := by
  obtain ⟨made, written, -, hwrite, rfl⟩ := perform_store_eq_ok_iff.mp h
  exact read_write hname hwrite

inductive Spares (directory name : String) : Action → Prop
  | print (text : String) : Spares directory name (.print text)
  | note (text : String) : Spares directory name (.note text)
  | store {other : String} (text : String) (isName : IsName other) (ne : name ≠ other) :
      Spares directory name (.store directory other text)

theorem read_of_spared (hname : IsName name) (hspares : a.Spares directory name)
    (h : a.perform t = .ok t') (hread : t.files.read (join directory name) = .ok bytes) :
    t'.files.read (join directory name) = .ok bytes := by
  cases hspares with
  | print text =>
      cases h
      exact hread
  | note text =>
      cases h
      exact hread
  | store text isName ne =>
      obtain ⟨made, written, hmake, hwrite, rfl⟩ := perform_store_eq_ok_iff.mp h
      have hmade := (moreDirectories_of_makeDirectories hmake).read hread
      exact read_write_of_ne hname isName ne hwrite hmade

theorem performAll_cons_iff :
    performAll t (a :: actions) = (t', none) ↔
      ∃ u, a.perform t = .ok u ∧ performAll u actions = (t', none) := by
  rw [performAll]
  cases a.perform t <;> simp

theorem performAll_append_iff {before after : List Action} :
    performAll t (before ++ after) = (t', none) ↔
      ∃ u, performAll t before = (u, none) ∧ performAll u after = (t', none) := by
  induction before generalizing t with
  | nil => simp [performAll]
  | cons a before ih =>
      simp only [List.cons_append, performAll_cons_iff, ih]
      constructor
      · rintro ⟨u, ha, v, hbefore, hafter⟩
        exact ⟨v, ⟨u, ha, hbefore⟩, hafter⟩
      · rintro ⟨v, ⟨u, ha, hbefore⟩, hafter⟩
        exact ⟨u, ha, v, hbefore, hafter⟩

theorem read_of_performAll_spared (hname : IsName name)
    (hspares : ∀ a ∈ actions, a.Spares directory name)
    (h : performAll t actions = (t', none))
    (hread : t.files.read (join directory name) = .ok bytes) :
    t'.files.read (join directory name) = .ok bytes := by
  induction actions generalizing t with
  | nil =>
      cases h
      exact hread
  | cons a actions ih =>
      obtain ⟨ha, hactions⟩ := List.forall_mem_cons.mp hspares
      obtain ⟨u, hperform, hrest⟩ := performAll_cons_iff.mp h
      exact ih hactions hrest (read_of_spared hname ha hperform hread)

theorem read_of_performAll_store {before after : List Action} (hname : IsName name)
    (hspares : ∀ a ∈ after, a.Spares directory name)
    (h : performAll t (before ++ .store directory name text :: after) = (t', none)) :
    t'.files.read (join directory name) = .ok (bytesOf text) := by
  obtain ⟨u, -, hrest⟩ := performAll_append_iff.mp h
  obtain ⟨v, hstore, hafter⟩ := performAll_cons_iff.mp hrest
  exact read_of_performAll_spared hname hspares hafter (read_of_store hname hstore)

end Action

/-! ## Outcomes -/

section

variable {color compact : Bool} {directory name : String} {t t' : Transcript}

theorem sanitizeActions_of_accepted {o : Outcome} {r : Sanitized} (hr : o.result = .ok r) :
    sanitizeActions color (some directory) compact o =
      r.warnings.map (fun i => .note (warningNote color o.path i)) ++
        [.store directory (resultName o.path) (render compact r.value)] := by
  rw [sanitizeActions, hr]

theorem mem_sanitizeActions {out : Option String} {o : Outcome} {a : Action}
    (ha : a ∈ sanitizeActions color out compact o) :
    (∃ text, a = .note text) ∨ ∃ r, o.result = .ok r ∧
      (out = none ∧ a = .print (render compact r.value ++ "\n") ∨
        ∃ directory, out = some directory ∧
          a = .store directory (resultName o.path) (render compact r.value)) := by
  unfold sanitizeActions at ha
  split at ha
  · exact .inl ⟨_, List.mem_singleton.mp ha⟩
  next r hresult =>
    rcases List.mem_append.mp ha with hnote | haction
    · obtain ⟨i, -, rfl⟩ := List.mem_map.mp hnote
      exact .inl ⟨_, rfl⟩
    · rw [List.mem_singleton] at haction
      refine .inr ⟨r, hresult, ?_⟩
      cases out with
      | none => exact .inl ⟨rfl, haction⟩
      | some directory => exact .inr ⟨directory, rfl, haction⟩

theorem spares_sanitizeActions {o : Outcome}
    (hne : ∀ r, o.result = .ok r → resultName o.path ≠ name) :
    ∀ a ∈ sanitizeActions color (some directory) compact o, a.Spares directory name := by
  intro a ha
  obtain ⟨text, rfl⟩ | ⟨r, hr, ⟨hnone, -⟩ | ⟨_, hdirectory, rfl⟩⟩ := mem_sanitizeActions ha
  · exact .note _
  · cases hnone
  · cases hdirectory
    exact .store _ (isName_resultName o.path) (hne r hr).symm

theorem read_of_last {before after : List Outcome} {o : Outcome} {r : Sanitized}
    (hr : o.result = .ok r)
    (hafter : ∀ x ∈ after, ∀ r, x.result = .ok r → resultName x.path ≠ resultName o.path)
    (h : Action.performAll t
      ((before ++ o :: after).flatMap (sanitizeActions color (some directory) compact)) =
        (t', none)) :
    t'.files.read (join directory (resultName o.path)) =
      .ok (bytesOf (render compact r.value)) := by
  rw [List.flatMap_append, List.flatMap_cons, sanitizeActions_of_accepted hr, List.append_assoc,
    List.singleton_append, ← List.append_assoc] at h
  refine Action.read_of_performAll_store (isName_resultName o.path) (fun a ha => ?_) h
  obtain ⟨x, hx, ha⟩ := List.mem_flatMap.mp ha
  exact spares_sanitizeActions (hafter x hx) a ha

theorem exists_last_accepted {outcomes : List Outcome}
    (h : Action.performAll t
      (outcomes.flatMap (sanitizeActions color (some directory) compact)) = (t', none))
    {o : Outcome} {r : Sanitized} (ho : o ∈ outcomes) (hr : o.result = .ok r) :
    ∃ before last after result, outcomes = before ++ last :: after ∧
      resultName last.path = resultName o.path ∧ last.result = .ok result ∧
      (∀ x ∈ after, ∀ r, x.result = .ok r → resultName x.path ≠ resultName o.path) ∧
      t'.files.read (join directory (resultName o.path)) =
        .ok (bytesOf (render compact result.value)) := by
  have hshared : ∃ x ∈ outcomes,
      resultName x.path = resultName o.path ∧ ∃ r, x.result = .ok r := ⟨o, ho, rfl, r, hr⟩
  obtain ⟨before, last, after, rfl, ⟨hname, result, hresult⟩, hafter⟩ := exists_last hshared
  have hlast : ∀ x ∈ after, ∀ r, x.result = .ok r → resultName x.path ≠ resultName o.path :=
    fun x hx r hr hx' => hafter x hx ⟨hx', r, hr⟩
  have hread := read_of_last hresult (by rwa [hname]) h
  rw [hname] at hread
  exact ⟨before, last, after, result, rfl, hname, hresult, hlast, hread⟩

theorem exists_last_read {outcomes : List Outcome}
    (haccepted : ∀ o ∈ outcomes, ∃ r, o.result = .ok r)
    (h : Action.performAll t
      (outcomes.flatMap (sanitizeActions color (some directory) compact)) = (t', none))
    {o : Outcome} (ho : o ∈ outcomes) :
    ∃ before last after r, outcomes = before ++ last :: after ∧
      resultName last.path = resultName o.path ∧
      (∀ x ∈ after, resultName x.path ≠ resultName o.path) ∧ last.result = .ok r ∧
      t'.files.read (join directory (resultName o.path)) =
        .ok (bytesOf (render compact r.value)) := by
  obtain ⟨r, hr⟩ := haccepted o ho
  obtain ⟨before, last, after, result, rfl, hname, hresult, hafter, hread⟩ :=
    exists_last_accepted h ho hr
  refine ⟨before, last, after, result, rfl, hname, fun x hx => ?_, hresult, hread⟩
  obtain ⟨r, hr⟩ := haccepted x (by simp [hx])
  exact hafter x hx r hr

end

/-! ## Runs -/

section

variable {color : Bool} {fs : Files} {s : Settings}

theorem path_of_process {o : Options} {schema : Schema} {pointer : Option String}
    {path : String} {outcome : Outcome}
    (h : process fs o schema pointer path = .ok outcome) : outcome.path = path := by
  unfold process at h
  split at h
  · cases h
  · split at h
    · cases h
      rfl
    · split at h
      · cases h
        rfl
      · cases h

theorem mapM_process_eq_ok_iff {o : Options} {schema : Schema} {pointer : Option String}
    {paths : List String} {outcomes : List Outcome} :
    paths.mapM (process fs o schema pointer) = .ok outcomes ↔
      paths = outcomes.map Outcome.path ∧
        ∀ x ∈ outcomes, process fs o schema pointer x.path = .ok x := by
  rw [mapM_eq_ok_iff]
  constructor
  · intro h
    have hpaths : paths = outcomes.map Outcome.path := by
      have hmap := map_eq_of_forall₂ (f := id) (fun _ _ h => path_of_process h) h
      rw [hmap, List.map_id]
    rw [hpaths, List.forall₂_map_left_iff, List.forall₂_same] at h
    exact ⟨hpaths, h⟩
  · rintro ⟨rfl, h⟩
    rwa [List.forall₂_map_left_iff, List.forall₂_same]

theorem load_eq_ok_iff {outcomes : List Outcome} :
    load fs s = .ok outcomes ↔ ∃ o schema, s.options fs = .ok o ∧ s.readSchema fs = .ok schema ∧
      s.paths fs = .ok (outcomes.map Outcome.path) ∧
        ∀ x ∈ outcomes, process fs o schema s.pointer x.path = .ok x := by
  rw [load]
  cases s.options fs with
  | error e => simp [bind, Except.bind]
  | ok o =>
      cases s.readSchema fs with
      | error e => simp [bind, Except.bind]
      | ok schema =>
          cases s.paths fs with
          | error e => simp [bind, Except.bind]
          | ok paths => simp [bind, Except.bind, mapM_process_eq_ok_iff]

theorem isAccepted_iff {o : Outcome} : o.isAccepted = true ↔ ∃ r, o.result = .ok r := by
  rw [Outcome.isAccepted]
  cases o.result <;> simp [Except.isOk, Except.toBool]

theorem exitCode_eq_zero_iff {outcomes : List Outcome} :
    exitCode outcomes = 0 ↔ ∀ o ∈ outcomes, ∃ r, o.result = .ok r := by
  simp [exitCode, isAccepted_iff]

theorem exit_runBatch_eq_zero_iff {actions : List Outcome → List Action} :
    (runBatch color fs s actions).exit = 0 ↔ ∃ outcomes, load fs s = .ok outcomes ∧
      (∀ o ∈ outcomes, ∃ r, o.result = .ok r) ∧
        Action.performAll ⟨"", "", fs⟩ (actions outcomes) =
          ((runBatch color fs s actions).transcript, none) := by
  rw [runBatch]
  cases hload : load fs s with
  | error e => simp [failed]
  | ok outcomes =>
      rcases hperform : Action.performAll ⟨"", "", fs⟩ (actions outcomes) with ⟨t, _ | e⟩
      · simp [hperform, exitCode_eq_zero_iff]
      · simp [hperform, failed]

end

/-! ## Two documents of one stem -/

def sameStems : Files :=
  ⟨[(["w", "s.json"], bytesOf "\x7b\"id\":0\x7d"),
    (["w", "a", "x.json"], bytesOf "\x7b\"id\":1\x7d"),
    (["w", "b", "x.json"], bytesOf "\x7b\"id\":2\x7d")], [], ["w"]⟩

def sameStemsSettings : Settings :=
  ⟨"s.json", ["a/x.json", "b/x.json"], none, none, false, false, none⟩

def sameStemsArguments : List String :=
  ["sanitize", "-s", "s.json", "-i", "a/x.json", "b/x.json", "--compact", "--out", "out"]

private theorem request_sameStems :
    request sameStemsArguments = .sanitize sameStemsSettings (some "out") true := by
  decide +kernel

private theorem paths_sameStems :
    sameStemsSettings.paths sameStems = .ok ["a/x.json", "b/x.json"] := by
  decide +kernel

private theorem readSchema_sameStems :
    sameStemsSettings.readSchema sameStems = .ok [("id", .scalar .int)] := by
  have htext : sameStems.readText sameStemsSettings.schema = .ok "\x7b\"id\":0\x7d" := rfl
  have hread : Schema.read (bytesOf "\x7b\"id\":0\x7d") = .ok [("id", .scalar .int)] := by
    decide +kernel
  simp only [Settings.readSchema, htext, hread]

private theorem process_sameStems :
    process sameStems {} [("id", .scalar .int)] none "a/x.json" =
        .ok ⟨"a/x.json", .ok ⟨.mapping [("id", .integer 1)], []⟩⟩ ∧
      process sameStems {} [("id", .scalar .int)] none "b/x.json" =
        .ok ⟨"b/x.json", .ok ⟨.mapping [("id", .integer 2)], []⟩⟩ := by
  have hfirst : sameStems.readText "a/x.json" = .ok "\x7b\"id\":1\x7d" := rfl
  have hsecond : sameStems.readText "b/x.json" = .ok "\x7b\"id\":2\x7d" := rfl
  have hone : sanitize {} "\x7b\"id\":1\x7d" [("id", .scalar .int)] =
      .ok ⟨.mapping [("id", .integer 1)], []⟩ := by
    decide +kernel
  have htwo : sanitize {} "\x7b\"id\":2\x7d" [("id", .scalar .int)] =
      .ok ⟨.mapping [("id", .integer 2)], []⟩ := by
    decide +kernel
  simp only [process, hfirst, hsecond, hone, htwo, and_self]

private theorem resultName_sameStems :
    resultName "a/x.json" = "x.json" ∧ resultName "b/x.json" = "x.json" :=
  ⟨rfl, rfl⟩

private theorem run_sameStems : run false sameStems sameStemsArguments =
    ⟨0, "", "", ⟨(["w", "out", "x.json"], bytesOf "\x7b\"id\":2\x7d") :: sameStems.contents,
      [["w", "out"]], ["w"]⟩⟩ := by
  have hload : load sameStems sameStemsSettings =
      .ok [⟨"a/x.json", .ok ⟨.mapping [("id", .integer 1)], []⟩⟩,
        ⟨"b/x.json", .ok ⟨.mapping [("id", .integer 2)], []⟩⟩] := by
    refine load_eq_ok_iff.mpr ⟨{}, _, rfl, readSchema_sameStems, paths_sameStems, ?_⟩
    exact List.forall_mem_cons.mpr
      ⟨process_sameStems.1, List.forall_mem_singleton.mpr process_sameStems.2⟩
  have hfirst : render true (.mapping [("id", .integer 1)]) = "\x7b\"id\":1\x7d" := by
    decide +kernel
  have hsecond : render true (.mapping [("id", .integer 2)]) = "\x7b\"id\":2\x7d" := by
    decide +kernel
  have hstore : ∀ text text', Action.performAll ⟨"", "", sameStems⟩
      [.store "out" "x.json" text, .store "out" "x.json" text'] =
        (⟨"", "", ⟨(["w", "out", "x.json"], bytesOf text') :: sameStems.contents,
          [["w", "out"]], ["w"]⟩⟩, none) := fun _ _ => rfl
  simp only [run, request_sameStems, runBatch, hload, List.flatMap_cons, List.flatMap_nil,
    sanitizeActions, List.map_nil, List.nil_append, List.append_nil, List.cons_append, hfirst,
    hsecond, resultName_sameStems, hstore]
  rfl

/-! ## The last result of a name -/

/-- A run that stores its results and ends well has a result for every document, and leaves in
the file of each the result for the last document whose file has that name.  This is the
document's own result where no other shares its name. -/
theorem last_result_stored {color compact : Bool} {fs : Files} {arguments : List String}
    {s : Settings} {directory : String}
    (hrequest : request arguments = .sanitize s (some directory) compact)
    (hexit : (run color fs arguments).exit = 0) :
    ∃ o schema paths, s.options fs = .ok o ∧ s.readSchema fs = .ok schema ∧
      s.paths fs = .ok paths ∧
      (∀ p ∈ paths, ∃ before q after r, paths = before ++ q :: after ∧
        resultName q = resultName p ∧ (∀ x ∈ after, resultName x ≠ resultName p) ∧
        process fs o schema s.pointer q = .ok ⟨q, .ok r⟩ ∧
        (run color fs arguments).transcript.files.read (join directory (resultName p)) =
          .ok (bytesOf (render compact r.value))) ∧
      ∀ p ∈ paths, (∀ q ∈ paths, resultName q = resultName p → q = p) →
        ∃ r, process fs o schema s.pointer p = .ok ⟨p, .ok r⟩ ∧
          (run color fs arguments).transcript.files.read (join directory (resultName p)) =
            .ok (bytesOf (render compact r.value)) := by
  have hrun : run color fs arguments = runBatch color fs s fun outcomes =>
      outcomes.flatMap (sanitizeActions color (some directory) compact) := by
    rw [run, hrequest]
  rw [hrun] at hexit ⊢
  obtain ⟨outcomes, hload, haccepted, hperform⟩ := exit_runBatch_eq_zero_iff.mp hexit
  obtain ⟨o, schema, ho, hschema, hpaths, hprocess⟩ := load_eq_ok_iff.mp hload
  refine ⟨o, schema, _, ho, hschema, hpaths, fun p hp => ?_, fun p hp halone => ?_⟩
  · obtain ⟨x, hx, rfl⟩ := List.mem_map.mp hp
    obtain ⟨before, last, after, r, rfl, hname, hafter, hr, hread⟩ :=
      exists_last_read haccepted hperform hx
    have hlast := hprocess last (by simp)
    refine ⟨before.map Outcome.path, last.path, after.map Outcome.path, r, by simp, hname,
      List.forall_mem_map.mpr hafter, ?_, hread⟩
    rw [hlast, ← hr]
  · obtain ⟨x, hx, rfl⟩ := List.mem_map.mp hp
    obtain ⟨before, last, after, r, rfl, hname, -, hr, hread⟩ :=
      exists_last_read haccepted hperform hx
    have hlast := hprocess last (by simp)
    have halone' : last.path = x.path := halone last.path (by simp) hname
    refine ⟨r, ?_, hread⟩
    rw [← halone', hlast, ← hr]

theorem last_result_stored_same_stems :
    request sameStemsArguments = .sanitize sameStemsSettings (some "out") true ∧
      (run false sameStems sameStemsArguments).exit = 0 ∧
      ∃ r, process sameStems {} [("id", .scalar .int)] none "b/x.json" =
          .ok ⟨"b/x.json", .ok r⟩ ∧
        (run false sameStems sameStemsArguments).transcript.files.read
          (join "out" (resultName "a/x.json")) = .ok (bytesOf (render true r.value)) := by
  have hexit : (run false sameStems sameStemsArguments).exit = 0 := by rw [run_sameStems]
  obtain ⟨o, schema, paths, ho, hschema, hpaths, hlast, -⟩ :=
    last_result_stored request_sameStems hexit
  cases ho
  rw [readSchema_sameStems] at hschema
  cases hschema
  rw [paths_sameStems] at hpaths
  cases hpaths
  obtain ⟨before, q, after, r, hsplit, -, hafter, hresult, hread⟩ := hlast "a/x.json" (by simp)
  have hq : q = "b/x.json" := by
    rcases before with - | ⟨x, - | ⟨y, before⟩⟩
    · cases hsplit
      obtain ⟨hfirst, hsecond⟩ := resultName_sameStems
      exact absurd (hsecond.trans hfirst.symm) (hafter "b/x.json" List.mem_cons_self)
    · cases hsplit
      rfl
    · simp at hsplit
  rw [hq] at hresult
  exact ⟨request_sameStems, hexit, r, hresult, hread⟩

/-- The run accepts both documents and ends well, and the result for the first is nowhere. -/
theorem second_result_replaces_first :
    request sameStemsArguments = .sanitize sameStemsSettings (some "out") true ∧
      sameStemsSettings.paths sameStems = .ok ["a/x.json", "b/x.json"] ∧
      (run false sameStems sameStemsArguments).exit = 0 ∧
      ∃ r, process sameStems {} [("id", .scalar .int)] none "a/x.json" =
          .ok ⟨"a/x.json", .ok r⟩ ∧
        (run false sameStems sameStemsArguments).transcript.files.read
          (join "out" (resultName "a/x.json")) ≠ .ok (bytesOf (render true r.value)) := by
  refine ⟨request_sameStems, paths_sameStems, by rw [run_sameStems], _, process_sameStems.1, ?_⟩
  have hread : (run false sameStems sameStemsArguments).transcript.files.read
      (join "out" (resultName "a/x.json")) = .ok (bytesOf "\x7b\"id\":2\x7d") := by
    rw [run_sameStems]
    rfl
  have hrender : render true (.mapping [("id", .integer 1)]) = "\x7b\"id\":1\x7d" := by
    decide +kernel
  rw [hread, hrender]
  decide

end SchemaSieve.Command
