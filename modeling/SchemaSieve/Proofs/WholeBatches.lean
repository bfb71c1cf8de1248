import SchemaSieve.Proofs.DecidableEquality
import SchemaSieve.Proofs.Loading

/-!
# All or nothing

A run reads all of its batch before it writes anything.  A batch that cannot be loaded therefore
leaves no trace, and results come from the files as they were before the run, also where the run
replaces one of them.
-/

namespace SchemaSieve.Command

open SchemaSieve.Path Files

/-! ## What actions change -/

namespace Action

variable {t t' : Transcript} {e : Option RunError} {a : Action} {actions : List Action}
  {place : Place} {bytes : Bytes}

def printed : Action → String
  | .print text => text
  | _ => ""

def IsNamed : Action → Prop
  | .store _ name _ => IsName name
  | _ => True

def IsStore : Action → Prop
  | .store _ _ _ => True
  | _ => False

inductive Stored (fs : Files) (place : Place) : Bytes → Action → Prop
  | intro {directory name : String} (text : String)
      (leads : fs.locate (join directory name) = .ok place) :
      Stored fs place (bytesOf text) (.store directory name text)

theorem Stored.grows {fs fs' : Files} (h : a.Stored fs place bytes) (hgrows : Grows fs fs') :
    a.Stored fs' place bytes := by
  obtain ⟨text, leads⟩ := h
  exact .intro text (hgrows.locate leads)

theorem out_of_perform (h : a.perform t = .ok t') : t'.out = t.out ++ a.printed := by
  cases a with
  | print text =>
      cases h
      rfl
  | note text =>
      cases h
      simp [printed]
  | store directory name text =>
      obtain ⟨made, written, -, -, rfl⟩ := perform_store_eq_ok_iff.mp h
      simp [printed]

theorem grows_of_perform (hname : a.IsNamed) (h : a.perform t = .ok t') :
    Grows t.files t'.files := by
  cases a with
  | print text =>
      cases h
      exact .refl _
  | note text =>
      cases h
      exact .refl _
  | store directory name text =>
      obtain ⟨made, written, hmake, hwrite, rfl⟩ := perform_store_eq_ok_iff.mp h
      obtain ⟨q, -, rfl⟩ := exists_put_of_write hname hwrite
      exact (moreDirectories_of_makeDirectories hmake).grows.trans (grows_put made q _)

theorem content_of_perform (hname : a.IsNamed) (h : a.perform t = .ok t')
    (hcontent : t'.files.content? place = some bytes) :
    t.files.content? place = some bytes ∨ a.Stored t'.files place bytes := by
  cases a with
  | print text =>
      cases h
      exact .inl hcontent
  | note text =>
      cases h
      exact .inl hcontent
  | store directory name text =>
      obtain ⟨made, written, hmake, hwrite, rfl⟩ := perform_store_eq_ok_iff.mp h
      obtain ⟨q, hlocate, rfl⟩ := exists_put_of_write hname hwrite
      by_cases hplace : place = q
      · subst hplace
        rw [content?_put_self] at hcontent
        cases hcontent
        exact .inr (.intro text hlocate)
      · rw [content?_put_of_ne _ hplace, content?,
          (moreDirectories_of_makeDirectories hmake).contents] at hcontent
        exact .inl hcontent

theorem performAll_induction {R : Transcript → Transcript → Prop} (hrefl : ∀ t, R t t)
    (htrans : ∀ t u v, R t u → R u v → R t v)
    (hstep : ∀ a ∈ actions, ∀ t u, a.perform t = .ok u → R t u)
    (h : performAll t actions = (t', e)) : R t t' := by
  induction actions generalizing t with
  | nil =>
      cases h
      exact hrefl _
  | cons a actions ih =>
      obtain ⟨ha, hactions⟩ := List.forall_mem_cons.mp hstep
      rw [performAll] at h
      cases hperform : a.perform t with
      | error e =>
          rw [hperform] at h
          cases h
          exact hrefl _
      | ok u =>
          rw [hperform] at h
          exact htrans t u t' (ha t u hperform) (ih hactions h)

theorem out_of_performAll_silent (hsilent : ∀ a ∈ actions, a.printed = "")
    (h : performAll t actions = (t', e)) : t'.out = t.out := by
  refine performAll_induction (R := fun t u => u.out = t.out) (fun _ => rfl)
    (fun _ _ _ htu huv => huv.trans htu) (fun a ha t u hperform => ?_) h
  rw [out_of_perform hperform, hsilent a ha, String.append_empty]

theorem content_of_performAll (hnames : ∀ a ∈ actions, a.IsNamed)
    (h : performAll t actions = (t', e)) (hcontent : t'.files.content? place = some bytes) :
    t.files.content? place = some bytes ∨ ∃ a ∈ actions, a.Stored t'.files place bytes := by
  -- files only grow, so that the path of what an action has stored leads there to the end
  have hall := performAll_induction
    (R := fun t u => Grows t.files u.files ∧ ∀ place bytes, u.files.content? place = some bytes →
      t.files.content? place = some bytes ∨ ∃ a ∈ actions, a.Stored u.files place bytes)
    (fun t => ⟨.refl _, fun _ _ => .inl⟩) ?_ (fun a ha t u hperform => ?_) h
  · exact hall.2 place bytes hcontent
  · rintro t u v ⟨hgrows, hcontents⟩ ⟨hgrows', hcontents'⟩
    refine ⟨hgrows.trans hgrows', fun place bytes hcontent => ?_⟩
    rcases hcontents' place bytes hcontent with hbefore | hstored
    · refine (hcontents place bytes hbefore).imp_right ?_
      rintro ⟨a, ha, hstored⟩
      exact ⟨a, ha, hstored.grows hgrows'⟩
    · exact .inr hstored
  · refine ⟨grows_of_perform (hnames a ha) hperform, fun place bytes hcontent => ?_⟩
    exact (content_of_perform (hnames a ha) hperform hcontent).imp_right fun hstored =>
      ⟨a, ha, hstored⟩

theorem performAll_of_not_store (hstore : ∀ a ∈ actions, ¬ a.IsStore) :
    ∃ err, performAll t actions =
      (⟨t.out ++ String.join (actions.map printed), err, t.files⟩, none) := by
  induction actions generalizing t with
  | nil => exact ⟨t.err, by simp [performAll]⟩
  | cons a actions ih =>
      obtain ⟨ha, hrest⟩ := List.forall_mem_cons.mp hstore
      cases a with
      | print text =>
          obtain ⟨err, hperform⟩ := ih (t := { t with out := t.out ++ text }) hrest
          exact ⟨err, by simp [performAll, perform, hperform, printed, String.append_assoc]⟩
      | note text =>
          obtain ⟨err, hperform⟩ := ih (t := { t with err := t.err ++ text }) hrest
          exact ⟨err, by simp [performAll, perform, hperform, printed]⟩
      | store directory name text => exact absurd trivial ha

end Action

/-! ## What a run does about its outcomes -/

def Outcome.resultText (compact : Bool) (o : Outcome) : String :=
  match o.result with
  | .ok r => render compact r.value ++ "\n"
  | .error _ => ""

def checkText (color json : Bool) (outcomes : List Outcome) : String :=
  if json then (report outcomes).pretty ++ "\n"
  else String.join (outcomes.map (·.check color))

section

variable {color compact json : Bool} {directory : String} {out : Option String} {o : Outcome}
  {outcomes : List Outcome} {a : Action}

theorem isNamed_of_mem (ha : a ∈ outcomes.flatMap (sanitizeActions color out compact)) :
    a.IsNamed := by
  obtain ⟨o, -, ha⟩ := List.mem_flatMap.mp ha
  obtain ⟨text, rfl⟩ | ⟨r, -, ⟨-, rfl⟩ | ⟨directory, -, rfl⟩⟩ := mem_sanitizeActions ha
  · trivial
  · trivial
  · exact isName_resultName o.path

theorem printed_eq_empty_of_mem
    (ha : a ∈ outcomes.flatMap (sanitizeActions color (some directory) compact)) :
    a.printed = "" := by
  obtain ⟨o, -, ha⟩ := List.mem_flatMap.mp ha
  obtain ⟨text, rfl⟩ | ⟨r, -, ⟨hnone, -⟩ | ⟨directory, -, rfl⟩⟩ := mem_sanitizeActions ha
  · rfl
  · cases hnone
  · rfl

theorem not_isStore_of_mem_sanitize
    (ha : a ∈ outcomes.flatMap (sanitizeActions color none compact)) : ¬ a.IsStore := by
  obtain ⟨o, -, ha⟩ := List.mem_flatMap.mp ha
  obtain ⟨text, rfl⟩ | ⟨r, -, ⟨-, rfl⟩ | ⟨directory, hsome, -⟩⟩ := mem_sanitizeActions ha
  · exact id
  · exact id
  · cases hsome

theorem not_isStore_of_mem_check (ha : a ∈ checkActions color json outcomes) : ¬ a.IsStore := by
  unfold checkActions at ha
  split at ha
  · rw [List.mem_singleton.mp ha]
    exact id
  · obtain ⟨o, -, rfl⟩ := List.mem_map.mp ha
    exact id

theorem printed_sanitizeActions :
    String.join ((sanitizeActions color none compact o).map Action.printed) =
      o.resultText compact := by
  have hnotes : ∀ issues : List Issue,
      String.join ((issues.map fun i => Action.note (warningNote color o.path i)).map
        Action.printed) = "" := by
    intro issues
    induction issues with
    | nil => rfl
    | cons i issues ih => simpa [Action.printed] using ih
  unfold sanitizeActions Outcome.resultText
  split
  next hresult => simp [hresult, Action.printed]
  next hresult =>
    rw [List.map_append, String.join_append, hnotes]
    simp [hresult, Action.printed]

theorem printed_sanitize :
    String.join ((outcomes.flatMap (sanitizeActions color none compact)).map Action.printed) =
      String.join (outcomes.map (·.resultText compact)) := by
  induction outcomes with
  | nil => rfl
  | cons o outcomes ih =>
      rw [List.flatMap_cons, List.map_append, String.join_append, printed_sanitizeActions, ih,
        List.map_cons, String.join_cons]

theorem printed_check :
    String.join ((checkActions color json outcomes).map Action.printed) =
      checkText color json outcomes := by
  unfold checkActions checkText
  split
  · simp [Action.printed]
  · rw [List.map_map]
    rfl

end

/-! ## How a run ends -/

def finish (color : Bool) (fs : Files) (actions : List Outcome → List Action) :
    Except RunError (List Outcome) → Finished
  | .error e => failed color ⟨"", "", fs⟩ e
  | .ok outcomes =>
      match Action.performAll ⟨"", "", fs⟩ (actions outcomes) with
      | (t, none) => ⟨exitCode outcomes, t⟩
      | (t, some e) => failed color t e

theorem runBatch_eq_finish (color : Bool) (fs : Files) (s : Settings)
    (actions : List Outcome → List Action) :
    runBatch color fs s actions = finish color fs actions (load fs s) := by
  rw [runBatch]
  cases load fs s <;> rfl

/-- The run has changed and printed nothing, but for a note of what is wrong. -/
structure Traceless (fs : Files) (f : Finished) : Prop where
  exit : f.exit = 2
  out : f.transcript.out = ""
  files : f.transcript.files = fs

/-- The run has printed a text about its outcomes and changed nothing. -/
structure Tells (fs : Files) (outcomes : List Outcome) (text : String) (f : Finished) : Prop where
  exit : f.exit = exitCode outcomes
  out : f.transcript.out = text
  files : f.transcript.files = fs

/-- The run has stored results in a directory, as far as that is possible. -/
structure Stores (fs : Files) (directory : String) (compact : Bool) (outcomes : List Outcome)
    (f : Finished) : Prop where
  out : f.transcript.out = ""
  /-- A content is an old one or a result. -/
  contents : ∀ place bytes, f.transcript.files.content? place = some bytes →
    fs.content? place = some bytes ∨ ∃ x ∈ outcomes, ∃ r, x.result = .ok r ∧
      f.transcript.files.locate (join directory (resultName x.path)) = .ok place ∧
        bytes = bytesOf (render compact r.value)
  /-- Without trouble every result is there, unless one that comes later has its name. -/
  results : f.exit ≠ 2 → f.exit = exitCode outcomes ∧ ∀ x ∈ outcomes, ∀ r, x.result = .ok r →
    ∃ before last after result, outcomes = before ++ last :: after ∧
      resultName last.path = resultName x.path ∧ last.result = .ok result ∧
      (∀ y ∈ after, ∀ r, y.result = .ok r → resultName y.path ≠ resultName x.path) ∧
      f.transcript.files.read (join directory (resultName x.path)) =
        .ok (bytesOf (render compact result.value))

section

variable {color compact json : Bool} {directory : String} {fs : Files} {s : Settings}
  {actions : List Outcome → List Action} {outcomes : List Outcome}

theorem traceless_of_unloadable (h : Unloadable fs s) :
    Traceless fs (runBatch color fs s actions) := by
  rw [runBatch_eq_finish]
  cases hload : load fs s with
  | error e => exact ⟨rfl, rfl, rfl⟩
  | ok outcomes => exact absurd h (not_unloadable_of_load hload)

theorem tells_finish (hstore : ∀ a ∈ actions outcomes, ¬ a.IsStore) :
    Tells fs outcomes (String.join ((actions outcomes).map Action.printed))
      (finish color fs actions (.ok outcomes)) := by
  obtain ⟨err, hperform⟩ := Action.performAll_of_not_store (t := ⟨"", "", fs⟩) hstore
  simp only [finish, hperform]
  exact ⟨rfl, by simp, rfl⟩

theorem tells_sanitize : Tells fs outcomes (String.join (outcomes.map (·.resultText compact)))
    (finish color fs (fun outcomes => outcomes.flatMap (sanitizeActions color none compact))
      (.ok outcomes)) := by
  rw [← @printed_sanitize color]
  exact tells_finish fun _ => not_isStore_of_mem_sanitize

theorem tells_run_sanitize {arguments : List String}
    (hrequest : request arguments = .sanitize s none compact) (hload : load fs s = .ok outcomes) :
    Tells fs outcomes (String.join (outcomes.map (·.resultText compact)))
      (run color fs arguments) := by
  simp only [run, hrequest, runBatch_eq_finish, hload]
  exact tells_sanitize

theorem tells_run_check {arguments : List String} (hrequest : request arguments = .check s json)
    (hload : load fs s = .ok outcomes) :
    Tells fs outcomes (checkText color json outcomes) (run color fs arguments) := by
  simp only [run, hrequest, runBatch_eq_finish, hload]
  rw [← printed_check]
  exact tells_finish fun _ => not_isStore_of_mem_check

theorem content_of_sanitize {t t' : Transcript} {e : Option RunError} {place : Place}
    {bytes : Bytes} (h : Action.performAll t
      (outcomes.flatMap (sanitizeActions color (some directory) compact)) = (t', e))
    (hcontent : t'.files.content? place = some bytes) :
    t.files.content? place = some bytes ∨ ∃ x ∈ outcomes, ∃ r, x.result = .ok r ∧
      t'.files.locate (join directory (resultName x.path)) = .ok place ∧
        bytes = bytesOf (render compact r.value) := by
  refine (Action.content_of_performAll (fun _ => isNamed_of_mem) h hcontent).imp_right ?_
  rintro ⟨a, ha, hstored⟩
  obtain ⟨text, leads⟩ := hstored
  obtain ⟨x, hx, ha⟩ := List.mem_flatMap.mp ha
  obtain ⟨text, hnote⟩ | ⟨r, hr, ⟨-, hprint⟩ | ⟨_, hdirectory, hstore⟩⟩ := mem_sanitizeActions ha
  · cases hnote
  · cases hprint
  · cases hdirectory
    cases hstore
    exact ⟨x, hx, r, hr, leads, rfl⟩

theorem stores_of_load (hload : load fs s = .ok outcomes) :
    Stores fs directory compact outcomes (runBatch color fs s fun outcomes =>
      outcomes.flatMap (sanitizeActions color (some directory) compact)) := by
  rcases hperform : Action.performAll ⟨"", "", fs⟩
    (outcomes.flatMap (sanitizeActions color (some directory) compact)) with ⟨t, e⟩
  have hout := Action.out_of_performAll_silent (fun _ => printed_eq_empty_of_mem) hperform
  simp only [runBatch_eq_finish, hload, finish, hperform]
  cases e with
  | some e =>
      exact ⟨hout, fun _ _ => content_of_sanitize hperform, fun hexit => absurd rfl hexit⟩
  | none =>
      refine ⟨hout, fun _ _ => content_of_sanitize hperform, fun _ => ⟨rfl, fun x hx r hr => ?_⟩⟩
      exact exists_last_accepted hperform hx hr

end

/-! ## A directory that holds the documents -/

def overlapping : Files :=
  ⟨[(["w", "s.json"], bytesOf "\x7b\"id\":0\x7d"),
    (["w", "a", "x.json"], bytesOf "\x7b\"id\":\"1\"\x7d"),
    (["w", "x.json"], bytesOf "\x7b\"id\":\"2\"\x7d")], [], ["w"]⟩

def overlappingSettings (inputs : List String) : Settings :=
  ⟨"s.json", inputs, none, none, false, false, none⟩

def overlappingArguments (inputs : List String) : List String :=
  ["sanitize", "--compact", "--out", ".", "-s", "s.json", "-i"] ++ inputs

def overlappingPrint : List String := ["sanitize", "-s", "s.json", "-i", "a/x.json", "x.json"]

def overlappingCheck (inputs : List String) : List String :=
  ["check", "-s", "s.json", "-i"] ++ inputs

private theorem request_overlapping :
    request (overlappingArguments ["a/x.json", "x.json"]) =
        .sanitize (overlappingSettings ["a/x.json", "x.json"]) (some ".") true ∧
      request (overlappingArguments ["a/x.json", "y.json"]) =
        .sanitize (overlappingSettings ["a/x.json", "y.json"]) (some ".") true := by
  constructor <;> decide +kernel

private theorem request_overlappingPrint :
    request overlappingPrint =
      .sanitize (overlappingSettings ["a/x.json", "x.json"]) none false := by
  decide +kernel

private theorem request_overlappingCheck :
    request (overlappingCheck ["a/x.json", "x.json"]) =
        .check (overlappingSettings ["a/x.json", "x.json"]) false ∧
      request (overlappingCheck ["a/x.json", "y.json"]) =
        .check (overlappingSettings ["a/x.json", "y.json"]) false := by
  constructor <;> decide +kernel

private theorem load_overlapping :
    load overlapping (overlappingSettings ["a/x.json", "x.json"]) =
      .ok [⟨"a/x.json", .ok ⟨.mapping [("id", .integer 1)], []⟩⟩,
        ⟨"x.json", .ok ⟨.mapping [("id", .integer 2)], []⟩⟩] := by
  have hschemaText : overlapping.readText "s.json" = .ok "\x7b\"id\":0\x7d" := rfl
  have hschema : Schema.read (bytesOf "\x7b\"id\":0\x7d") = .ok [("id", .scalar .int)] := by
    decide +kernel
  have hpaths : (overlappingSettings ["a/x.json", "x.json"]).paths overlapping =
      .ok ["a/x.json", "x.json"] := by decide +kernel
  have hfirst : overlapping.readText "a/x.json" = .ok "\x7b\"id\":\"1\"\x7d" := rfl
  have hsecond : overlapping.readText "x.json" = .ok "\x7b\"id\":\"2\"\x7d" := rfl
  refine load_iff_outcomesOf.mpr ⟨{}, [("id", .scalar .int)], rfl, ?_, hpaths, ?_⟩
  · exact readSchema_eq_ok_iff.mpr ⟨_, hschemaText, hschema⟩
  · refine List.forall_mem_cons.mpr
      ⟨⟨_, hfirst, ?_⟩, List.forall_mem_singleton.mpr ⟨_, hsecond, ?_⟩⟩
    · exact resultOf_none_iff.mpr (by decide +kernel)
    · exact resultOf_none_iff.mpr (by decide +kernel)

private theorem outcomes_overlapping {o : Options} {schema : Schema} {outcomes : List Outcome}
    (h : OutcomesOf overlapping (overlappingSettings ["a/x.json", "x.json"]) o schema outcomes) :
    outcomes = [⟨"a/x.json", .ok ⟨.mapping [("id", .integer 1)], []⟩⟩,
      ⟨"x.json", .ok ⟨.mapping [("id", .integer 2)], []⟩⟩] := by
  have hload := load_iff_outcomesOf.mpr ⟨o, schema, h⟩
  rw [load_overlapping] at hload
  cases hload
  rfl

private theorem run_overlapping :
    run false overlapping (overlappingArguments ["a/x.json", "x.json"]) =
      ⟨0, "", "", ⟨[(["w", "x.json"], bytesOf "\x7b\"id\":2\x7d"),
        (["w", "s.json"], bytesOf "\x7b\"id\":0\x7d"),
        (["w", "a", "x.json"], bytesOf "\x7b\"id\":\"1\"\x7d")], [], ["w"]⟩⟩ := by
  have hnames : resultName "a/x.json" = "x.json" ∧ resultName "x.json" = "x.json" := ⟨rfl, rfl⟩
  have hfirst : render true (.mapping [("id", .integer 1)]) = "\x7b\"id\":1\x7d" := by
    decide +kernel
  have hsecond : render true (.mapping [("id", .integer 2)]) = "\x7b\"id\":2\x7d" := by
    decide +kernel
  have hstore : ∀ text text', Action.performAll ⟨"", "", overlapping⟩
      [.store "." "x.json" text, .store "." "x.json" text'] =
        (⟨"", "", ⟨[(["w", "x.json"], bytesOf text'), (["w", "s.json"], bytesOf "\x7b\"id\":0\x7d"),
          (["w", "a", "x.json"], bytesOf "\x7b\"id\":\"1\"\x7d")], [], ["w"]⟩⟩, none) :=
    fun _ _ => rfl
  simp only [run, request_overlapping, runBatch, load_overlapping, List.flatMap_cons,
    List.flatMap_nil, sanitizeActions, List.map_nil, List.nil_append, List.append_nil,
    List.cons_append, hfirst, hsecond, hnames, hstore]
  rfl

private theorem read_overlapping
    (h : Stores overlapping "." true [⟨"a/x.json", .ok ⟨.mapping [("id", .integer 1)], []⟩⟩,
      ⟨"x.json", .ok ⟨.mapping [("id", .integer 2)], []⟩⟩]
      (run false overlapping (overlappingArguments ["a/x.json", "x.json"]))) :
    (run false overlapping (overlappingArguments ["a/x.json", "x.json"])).transcript.files.read
      (join "." "x.json") = .ok (bytesOf "\x7b\"id\":2\x7d") := by
  have hexit : (run false overlapping (overlappingArguments ["a/x.json", "x.json"])).exit ≠ 2 := by
    simp [run_overlapping]
  obtain ⟨-, hstored⟩ := h.results hexit
  obtain ⟨before, last, after, result, hsplit, -, hresult, hafter, hread⟩ :=
    hstored _ List.mem_cons_self _ rfl
  have hsecond : render true (.mapping [("id", .integer 2)]) = "\x7b\"id\":2\x7d" := by
    decide +kernel
  rcases before with - | ⟨x, - | ⟨y, before⟩⟩
  · cases hsplit
    exact (hafter ⟨"x.json", _⟩ List.mem_cons_self _ rfl rfl).elim
  · cases hsplit
    cases hresult
    rw [← hsecond]
    exact hread
  · simp at hsplit

private theorem unloadable_overlapping :
    Unloadable overlapping (overlappingSettings ["a/x.json", "y.json"]) := by
  have hmissing : overlapping.readText "y.json" = .error .notFound := rfl
  have hplain : Glob.Pattern.isWild "y.json" = false := by decide +kernel
  refine .source (List.mem_cons_of_mem _ List.mem_cons_self) (.plain hplain) ?_
  simp [hmissing]

/-- A batch that cannot be loaded ends the run without a trace.  Otherwise all that the run prints
or stores are results for the texts that its documents had at first. -/
theorem batch_loads_before_writing {color : Bool} {fs : Files} {arguments : List String}
    {s : Settings} (hrequest : (∃ out compact, request arguments = .sanitize s out compact) ∨
      ∃ json, request arguments = .check s json) :
    (Unloadable fs s → Traceless fs (run color fs arguments)) ∧
      (¬ Unloadable fs s → ∃ o schema outcomes, OutcomesOf fs s o schema outcomes ∧
        (∀ compact, request arguments = .sanitize s none compact →
          Tells fs outcomes (String.join (outcomes.map (·.resultText compact)))
            (run color fs arguments)) ∧
        (∀ directory compact, request arguments = .sanitize s (some directory) compact →
          Stores fs directory compact outcomes (run color fs arguments)) ∧
        ∀ json, request arguments = .check s json →
          Tells fs outcomes (checkText color json outcomes) (run color fs arguments)) := by
  constructor
  · intro h
    obtain ⟨out, compact, hrequest⟩ | ⟨json, hrequest⟩ := hrequest
    · rw [run, hrequest]
      exact traceless_of_unloadable h
    · rw [run, hrequest]
      exact traceless_of_unloadable h
  · intro h
    obtain ⟨outcomes, hload⟩ := exists_load_iff.mpr h
    obtain ⟨o, schema, houtcomes⟩ := load_iff_outcomesOf.mp hload
    refine ⟨o, schema, outcomes, houtcomes, fun compact hsanitize => ?_,
      fun directory compact hsanitize => ?_, fun json hcheck => ?_⟩
    · exact tells_run_sanitize hsanitize hload
    · rw [run, hsanitize]
      exact stores_of_load hload
    · exact tells_run_check hcheck hload

/-- One missing document keeps the other from being stored or told of.  When both are there the
second result is that of the document which the first result has replaced. -/
theorem batch_loads_before_writing_overlapping :
    request (overlappingArguments ["a/x.json", "y.json"]) =
        .sanitize (overlappingSettings ["a/x.json", "y.json"]) (some ".") true ∧
      Unloadable overlapping (overlappingSettings ["a/x.json", "y.json"]) ∧
      Traceless overlapping (run false overlapping (overlappingArguments ["a/x.json", "y.json"])) ∧
      request (overlappingArguments ["a/x.json", "x.json"]) =
        .sanitize (overlappingSettings ["a/x.json", "x.json"]) (some ".") true ∧
      ¬ Unloadable overlapping (overlappingSettings ["a/x.json", "x.json"]) ∧
      (run false overlapping (overlappingArguments ["a/x.json", "x.json"])).transcript.files.read
        (join "." "x.json") = .ok (bytesOf "\x7b\"id\":2\x7d") ∧
      request overlappingPrint =
        .sanitize (overlappingSettings ["a/x.json", "x.json"]) none false ∧
      (run false overlapping overlappingPrint).transcript.out =
        "\x7b\n  \"id\": 1\n\x7d\n\x7b\n  \"id\": 2\n\x7d\n" ∧
      request (overlappingCheck ["a/x.json", "x.json"]) =
        .check (overlappingSettings ["a/x.json", "x.json"]) false ∧
      (run false overlapping (overlappingCheck ["a/x.json", "x.json"])).transcript.out =
        "ok a/x.json\nok x.json\n" ∧
      request (overlappingCheck ["a/x.json", "y.json"]) =
        .check (overlappingSettings ["a/x.json", "y.json"]) false ∧
      Traceless overlapping (run false overlapping (overlappingCheck ["a/x.json", "y.json"])) := by
  have hloads : ¬ Unloadable overlapping (overlappingSettings ["a/x.json", "x.json"]) :=
    not_unloadable_of_load load_overlapping
  obtain ⟨htraceless, -⟩ := @batch_loads_before_writing false overlapping _ _
    (.inl ⟨some ".", true, request_overlapping.2⟩)
  obtain ⟨htracelessCheck, -⟩ := @batch_loads_before_writing false overlapping _ _
    (.inr ⟨false, request_overlappingCheck.2⟩)
  obtain ⟨-, hresults⟩ := @batch_loads_before_writing false overlapping _ _
    (.inl ⟨some ".", true, request_overlapping.1⟩)
  obtain ⟨o, schema, outcomes, houtcomes, -, hstores, -⟩ := hresults hloads
  cases outcomes_overlapping houtcomes
  obtain ⟨-, hresults⟩ := @batch_loads_before_writing false overlapping _ _
    (.inl ⟨none, false, request_overlappingPrint⟩)
  obtain ⟨_, _, _, houtcomes, hprints, -, -⟩ := hresults hloads
  cases outcomes_overlapping houtcomes
  have hprints := hprints false request_overlappingPrint
  obtain ⟨-, hresults⟩ := @batch_loads_before_writing false overlapping _ _
    (.inr ⟨false, request_overlappingCheck.1⟩)
  obtain ⟨_, _, _, houtcomes, -, -, hchecks⟩ := hresults hloads
  cases outcomes_overlapping houtcomes
  have hchecks := hchecks false request_overlappingCheck.1
  refine ⟨request_overlapping.2, unloadable_overlapping, htraceless unloadable_overlapping,
    request_overlapping.1, hloads, read_overlapping (hstores "." true request_overlapping.1),
    request_overlappingPrint, ?_, request_overlappingCheck.1, ?_, request_overlappingCheck.2,
    htracelessCheck unloadable_overlapping⟩
  · rw [hprints.out]
    decide +kernel
  · rw [hchecks.out]
    decide +kernel

end SchemaSieve.Command
