import SchemaSieve.Proofs.DecidableEquality
import SchemaSieve.Proofs.Layouts
import SchemaSieve.Proofs.Policies
import SchemaSieve.Proofs.SchemaTexts
import SchemaSieve.Proofs.WholeBatches

/-!
# Agreement of the verbs

To print results, to check for a reader and to check for a machine are three ways to tell of the
same outcomes.  They end alike, and with what each document alone would give.
-/

namespace SchemaSieve.Command

variable {color compact : Bool} {fs : Files} {s : Settings} {o : Options} {schema : Schema}
  {outcomes : List Outcome} {x : Outcome} {path : String}

/-! ## A document alone -/

/-- The batch of one document, at a path that is no pattern any more. -/
def loadAt (fs : Files) (s : Settings) (path : String) : Except RunError (List Outcome) := do
  let o ← s.options fs
  let schema ← s.readSchema fs
  let x ← process fs o schema s.pointer path
  .ok [x]

def runAt (color compact : Bool) (fs : Files) (s : Settings) (path : String) : Finished :=
  finish color fs (fun outcomes => outcomes.flatMap (sanitizeActions color none compact))
    (loadAt fs s path)

theorem load_eq_loadAt (h : s.paths fs = .ok [path]) : load fs s = loadAt fs s path := by
  simp only [load, loadAt, h]
  rfl

theorem loadAt_of_load (hload : load fs s = .ok outcomes) (hx : x ∈ outcomes) :
    loadAt fs s x.path = .ok [x] := by
  obtain ⟨o, schema, ho, hschema, -, hprocess⟩ := load_eq_ok_iff.mp hload
  simp only [loadAt, ho, hschema, bind, Except.bind, hprocess x hx]

theorem exit_runAt (hload : load fs s = .ok outcomes) (hx : x ∈ outcomes) :
    (runAt color compact fs s x.path).exit = 0 ↔ ∃ r, x.result = .ok r := by
  rw [runAt, loadAt_of_load hload hx, tells_sanitize.exit, exitCode_eq_zero_iff,
    List.forall_mem_singleton]

/-! ## Entries of a report -/

open Json Json.Reader

def listed (issues : List Issue) : Json :=
  .array (issues.map fun i => .object [("severity", .string i.severity.name),
    ("code", .string i.code.name), ("message", .string i.message)])

/-- The members that tell of a document at a path, by what it gives. -/
inductive ReportEntry (path : String) : Except Refusal Sanitized → Json → Prop
  | accepted (r : Sanitized) :
      ReportEntry path (.ok r) (.object [("path", .string path), ("status", .string "accepted"),
        ("warnings", listed r.warnings), ("errors", listed [])])
  | rejected (f : Failure) :
      ReportEntry path (.error (.rejected f)) (.object [("path", .string path),
        ("status", .string "rejected"), ("warnings", listed f.warnings),
        ("errors", listed f.errors), ("message", .string f.message)])
  | invalid {e : Refusal} (unread : (∃ source fault, e = .malformed source fault) ∨
        ∃ depth limit, e = .tooDeep depth limit) :
      ReportEntry path (.error e) (.object [("path", .string path), ("status", .string "invalid"),
        ("warnings", listed []), ("errors", listed []), ("message", .string e.message)])

/-- A report on what a document gives, as it is found under the names of its members. -/
structure Describes (path : String) (result : Except Refusal Sanitized) (j : Json) : Prop where
  entry : ReportEntry path result j
  accepted : Pointer.child? j "status" = some (.string "accepted") ↔ ∃ r, result = .ok r
  rejected : Pointer.child? j "status" = some (.string "rejected") ↔
    ∃ f, result = .error (.rejected f)
  failure : ∀ f, result = .error (.rejected f) →
    Pointer.child? j "warnings" = some (listed f.warnings) ∧
      Pointer.child? j "errors" = some (listed f.errors) ∧
      Pointer.child? j "message" = some (.string f.message)
  invalid : Pointer.child? j "status" = some (.string "invalid") ↔
    (∃ source fault, result = .error (.malformed source fault)) ∨
      ∃ depth limit, result = .error (.tooDeep depth limit)

theorem ReportEntry.describes {result : Except Refusal Sanitized} {j : Json}
    (h : ReportEntry path result j) : Describes path result j := by
  have hentry := h
  cases h with
  | accepted r => exact ⟨hentry, by simp [Pointer.child?, Members.get?],
      by simp [Pointer.child?, Members.get?], by simp, by simp [Pointer.child?, Members.get?]⟩
  | rejected f => exact ⟨hentry, by simp [Pointer.child?, Members.get?],
      by simp [Pointer.child?, Members.get?], by simp [Pointer.child?, Members.get?],
      by simp [Pointer.child?, Members.get?]⟩
  | invalid unread =>
      refine ⟨hentry, by simp [Pointer.child?, Members.get?], ?_, ?_, ?_⟩ <;>
        rcases unread with ⟨source, fault, rfl⟩ | ⟨depth, limit, rfl⟩ <;>
        simp [Pointer.child?, Members.get?]

theorem ResultOf.ne_noNormalForm {pointer : Option String} {text : String}
    {violation : Normalization.Violation} {result : Except Refusal Sanitized}
    (h : ResultOf o schema pointer text result) : result ≠ .error (.noNormalForm violation) := by
  cases h with
  | whole text =>
      rw [sanitize, Value.decode]
      cases Json.parse text with
      | error fault => simp [bind, Except.bind]
      | ok j => exact sanitizeValue_ne_noNormalForm violation
  | malformed parsed => simp
  | part parsed selected => exact sanitizeValue_ne_noNormalForm violation

theorem reportEntry_entry (h : ∀ violation, x.result ≠ .error (.noNormalForm violation)) :
    ReportEntry x.path x.result x.entry.toJson := by
  obtain ⟨path, result⟩ := x
  cases result with
  | ok r => exact .accepted r
  | error e =>
      cases e with
      | malformed source fault => exact .invalid (.inl ⟨source, fault, rfl⟩)
      | tooDeep depth limit => exact .invalid (.inr ⟨depth, limit, rfl⟩)
      | rejected f => exact .rejected f
      | noNormalForm violation => exact absurd rfl (h violation)

/-- The entry is of the document at a path, and tells what the document gives. -/
def EntryOf (fs : Files) (s : Settings) (o : Options) (schema : Schema) (path : String)
    (j : Json) : Prop :=
  ∃ text result, fs.readText path = .ok text ∧ ResultOf o schema s.pointer text result ∧
    Describes path result j

theorem reportEntry_of_mem (h : OutcomesOf fs s o schema outcomes) (hx : x ∈ outcomes) :
    ReportEntry x.path x.result x.entry.toJson := by
  obtain ⟨text, -, hresult⟩ := h.results x hx
  exact reportEntry_entry fun _ => hresult.ne_noNormalForm

theorem entryOf_entry (h : OutcomesOf fs s o schema outcomes) (hx : x ∈ outcomes) :
    EntryOf fs s o schema x.path x.entry.toJson := by
  obtain ⟨text, hread, hresult⟩ := h.results x hx
  exact ⟨text, x.result, hread, hresult, (reportEntry_of_mem h hx).describes⟩

theorem EntryOf.describes_sanitize {text : String} {j : Json} (h : EntryOf fs s o schema path j)
    (hpointer : s.pointer = none) (hread : fs.readText path = .ok text) :
    Describes path (sanitize o text schema) j := by
  obtain ⟨text', result, hread', hresult, hdescribes⟩ := h
  rw [hread] at hread'
  cases hread'
  rw [hpointer, resultOf_none_iff] at hresult
  rwa [hresult]

/-! ## Reports are read back -/

theorem within_listed (n : Nat) (issues : List Issue) : (listed issues).Within (n + 3) := by
  refine .array (List.forall_mem_map.mpr fun i _ => .object (by simp [Members.names]) ?_)
  simp only [List.forall_mem_cons, List.not_mem_nil, false_implies, implies_true, and_true]
  exact ⟨.string _ _, .string _ _, .string _ _⟩

theorem reread_listed (issues : List Issue) : (listed issues).reread = listed issues := by
  simp [listed, reread, rereadItems_eq_map, rereadMembers]

theorem ReportEntry.within {result : Except Refusal Sanitized} {j : Json}
    (h : ReportEntry path result j) (n : Nat) : j.Within (n + 4) := by
  cases h <;> refine .object (by simp [Members.names]) ?_ <;>
    simp only [List.forall_mem_cons, List.not_mem_nil, false_implies, implies_true, and_true] <;>
    simp only [within_listed, Within.string, and_self]

theorem ReportEntry.reread {result : Except Refusal Sanitized} {j : Json}
    (h : ReportEntry path result j) : j.reread = j := by
  cases h <;> simp [Json.reread, rereadMembers, reread_listed]

theorem parse_pretty_line {j : Json} (h : j.Within containerLimit) :
    Json.parse (j.pretty ++ "\n") = .ok j.reread := by
  have hbytes : bytesOf (j.pretty ++ "\n") = encode (j.prettyChars 0) ++ [byte '\n'] := by
    rw [Json.pretty, show "\n" = String.ofList ['\n'] from rfl, ← String.ofList_append,
      bytesOf_ofList, encode_append]
    rfl
  have hline : Delimited [byte '\n'] := delimited_of_isSpace (by decide)
  refine parse_eq_ok_iff.mpr ⟨[byte '\n'], ?_, by decide⟩
  rw [hbytes]
  exact (prettyLayout.spells h 0).reads _ hline

theorem parse_report (h : OutcomesOf fs s o schema outcomes) :
    Json.parse ((Json.array (outcomes.map (·.entry.toJson))).pretty ++ "\n") =
      .ok (.array (outcomes.map (·.entry.toJson))) := by
  have hentries : ∀ j ∈ outcomes.map (·.entry.toJson), j.Within (122 + 4) ∧ j.reread = j := by
    refine List.forall_mem_map.mpr fun x hx => ?_
    have hentry := reportEntry_of_mem h hx
    exact ⟨hentry.within 122, hentry.reread⟩
  rw [parse_pretty_line (.array fun j hj => (hentries j hj).1), Json.reread, rereadItems_eq_map,
    map_eq_self_iff.mpr fun j hj => (hentries j hj).2]

/-! ## One document of each kind -/

def mixed : Files :=
  ⟨[(["w", "s.json"], bytesOf "\x7b\"id\":0\x7d"), (["w", "a.json"], bytesOf "\x7b\"id\":1\x7d"),
    (["w", "b.json"], bytesOf "\x7b\"id\":\"one\"\x7d"), (["w", "c.json"], bytesOf "\x7b\"id\"")],
    [], ["w"]⟩

def mixedSettings (inputs : List String) : Settings :=
  ⟨"s.json", inputs, none, none, false, false, none⟩

def mixedArguments (inputs : List String) : List String := ["-s", "s.json", "-i"] ++ inputs

def mixedInputs : List String := ["a.json", "b.json", "c.json"]

def mixedReport : List String :=
  ["[",
    "  \x7b",
    "    \"path\": \"a.json\",",
    "    \"status\": \"accepted\",",
    "    \"warnings\": [],",
    "    \"errors\": []",
    "  \x7d,",
    "  \x7b",
    "    \"path\": \"b.json\",",
    "    \"status\": \"rejected\",",
    "    \"warnings\": [],",
    "    \"errors\": [",
    "      \x7b",
    "        \"severity\": \"error\",",
    "        \"code\": \"field-value-mismatch\",",
    "        \"message\": \"Value \\\"one\\\" of field `id` cannot be converted to type INT!\"",
    "      \x7d",
    "    ],",
    "    \"message\": \"Errors:\\nValue \\\"one\\\" of field `id` cannot be converted to type INT!\\n\"",
    "  \x7d,",
    "  \x7b",
    "    \"path\": \"c.json\",",
    "    \"status\": \"invalid\",",
    "    \"warnings\": [],",
    "    \"errors\": [],",
    "    \"message\": \"malformed JSON document: EOF while parsing an object at line 1 column 5\"",
    "  \x7d",
    "]"]

def mixedEntries : List Json :=
  [.object [("path", .string "a.json"), ("status", .string "accepted"), ("warnings", .array []),
      ("errors", .array [])],
    .object [("path", .string "b.json"), ("status", .string "rejected"), ("warnings", .array []),
      ("errors", .array [.object [("severity", .string "error"),
        ("code", .string "field-value-mismatch"),
        ("message", .string "Value \"one\" of field `id` cannot be converted to type INT!")]]),
      ("message", .string
        "Errors:\nValue \"one\" of field `id` cannot be converted to type INT!\n")],
    .object [("path", .string "c.json"), ("status", .string "invalid"), ("warnings", .array []),
      ("errors", .array []), ("message", .string
        "malformed JSON document: EOF while parsing an object at line 1 column 5")]]

private theorem entries_mixed {first second third : Json}
    (hfirst : ReportEntry "a.json" (.ok ⟨.mapping [("id", .integer 1)], []⟩) first)
    (hsecond : ReportEntry "b.json"
      (.error (.rejected ⟨[], [⟨⟨["id"]⟩, .valueMismatch (.string "one") "INT"⟩]⟩)) second)
    (hthird : ReportEntry "c.json"
      (.error (.malformed (bytesOf "\x7b\"id\"") ⟨.endOfObject, [], [], true⟩)) third) :
    [first, second, third] = mixedEntries := by
  have hmessage : Issue.message ⟨⟨["id"]⟩, .valueMismatch (.string "one") "INT"⟩ =
      "Value \"one\" of field `id` cannot be converted to type INT!" := by
    decide +kernel
  have hfailure : Failure.message ⟨[], [⟨⟨["id"]⟩, .valueMismatch (.string "one") "INT"⟩]⟩ =
      "Errors:\nValue \"one\" of field `id` cannot be converted to type INT!\n" := by
    decide +kernel
  have hfault : Refusal.message (.malformed (bytesOf "\x7b\"id\"") ⟨.endOfObject, [], [], true⟩) =
      "malformed JSON document: EOF while parsing an object at line 1 column 5" := by
    decide +kernel
  cases hfirst
  rcases hsecond with - | f | ⟨⟨_, _, ⟨⟩⟩ | ⟨_, _, ⟨⟩⟩⟩
  cases hthird
  simp only [listed, List.map_cons, List.map_nil, hmessage, hfailure, hfault]
  rfl

private theorem pretty_mixedEntries :
    (Json.array mixedEntries).pretty ++ "\n" = String.join (mixedReport.map (· ++ "\n")) := by
  have hchars : (Json.array mixedEntries).prettyChars 0 ++ ['\n'] =
      mixedReport.flatMap fun line => line.toList ++ ['\n'] := by
    decide +kernel
  rw [← String.toList_inj, String.toList_append, Json.pretty, String.toList_ofList]
  simpa [String.toList_join, List.flatMap_map] using hchars

private theorem request_mixed :
    request ("sanitize" :: mixedArguments mixedInputs) =
        .sanitize (mixedSettings mixedInputs) none false ∧
      request ("check" :: mixedArguments mixedInputs) = .check (mixedSettings mixedInputs) false ∧
      request ("check" :: "--json" :: mixedArguments mixedInputs) =
        .check (mixedSettings mixedInputs) true ∧
      request ("sanitize" :: mixedArguments ["a.json"]) =
        .sanitize (mixedSettings ["a.json"]) none false := by
  refine ⟨?_, ?_, ?_, ?_⟩ <;> decide +kernel

private theorem paths_mixed : (mixedSettings mixedInputs).paths mixed = .ok mixedInputs := by
  decide +kernel

private theorem readSchema_mixed :
    (mixedSettings mixedInputs).readSchema mixed = .ok [("id", .scalar .int)] := by
  have htext : mixed.readText "s.json" = .ok "\x7b\"id\":0\x7d" := rfl
  have hschema : Schema.read (bytesOf "\x7b\"id\":0\x7d") = .ok [("id", .scalar .int)] := by
    decide +kernel
  exact readSchema_eq_ok_iff.mpr ⟨_, htext, hschema⟩

private theorem load_mixed :
    load mixed (mixedSettings mixedInputs) =
      .ok [⟨"a.json", sanitize {} "\x7b\"id\":1\x7d" [("id", .scalar .int)]⟩,
        ⟨"b.json", sanitize {} "\x7b\"id\":\"one\"\x7d" [("id", .scalar .int)]⟩,
        ⟨"c.json", sanitize {} "\x7b\"id\"" [("id", .scalar .int)]⟩] := by
  refine load_iff_outcomesOf.mpr ⟨{}, _, rfl, readSchema_mixed, paths_mixed, ?_⟩
  simp only [List.forall_mem_cons, List.not_mem_nil, false_implies, implies_true, and_true]
  exact ⟨⟨_, rfl, .whole _⟩, ⟨_, rfl, .whole _⟩, ⟨_, rfl, .whole _⟩⟩

private theorem sanitize_mixed :
    sanitize {} "\x7b\"id\":1\x7d" [("id", .scalar .int)] =
        .ok ⟨.mapping [("id", .integer 1)], []⟩ ∧
      sanitize {} "\x7b\"id\":\"one\"\x7d" [("id", .scalar .int)] =
        .error (.rejected ⟨[], [⟨⟨["id"]⟩, .valueMismatch (.string "one") "INT"⟩]⟩) ∧
      sanitize {} "\x7b\"id\"" [("id", .scalar .int)] =
        .error (.malformed (bytesOf "\x7b\"id\"") ⟨.endOfObject, [], [], true⟩) := by
  refine ⟨?_, ?_, ?_⟩ <;> decide +kernel

/-! ## Exits and entries -/

/-- The verbs end alike: well if every document alone does.  The report is read back as a list
with an entry for each document, in their order, which is accepted if the document alone is.  A
document alone is its path as it is found, and any inputs that denote this path and no other give
the same run. -/
theorem verbs_agree {toPrint toCheck toReport : List String}
    (hprint : request toPrint = .sanitize s none compact)
    (hcheck : request toCheck = .check s false) (hreport : request toReport = .check s true)
    (hloads : (run color fs toPrint).exit ≠ 2) :
    (run color fs toCheck).exit = (run color fs toPrint).exit ∧
      (run color fs toReport).exit = (run color fs toPrint).exit ∧
      ∃ o schema paths entries, s.options fs = .ok o ∧ s.readSchema fs = .ok schema ∧
        s.paths fs = .ok paths ∧
        ((run color fs toPrint).exit = 0 ↔
          ∀ p ∈ paths, (runAt color compact fs s p).exit = 0) ∧
        (∀ inputs p alone, request alone = .sanitize { s with inputs := inputs } none compact →
          Settings.paths { s with inputs := inputs } fs = .ok [p] →
            run color fs alone = runAt color compact fs s p) ∧
        (run color fs toReport).transcript.out = (Json.array entries).pretty ++ "\n" ∧
        Json.parse (run color fs toReport).transcript.out = .ok (.array entries) ∧
        List.Forall₂ (fun p j => EntryOf fs s o schema p j ∧
          (Pointer.child? j "status" = some (.string "accepted") ↔
            (runAt color compact fs s p).exit = 0)) paths entries := by
  obtain ⟨outcomes, hload⟩ : ∃ outcomes, load fs s = .ok outcomes := by
    refine exists_load_iff.mpr fun hunloadable => hloads ?_
    rw [run, hprint]
    exact (traceless_of_unloadable hunloadable).exit
  obtain ⟨o, schema, houtcomes⟩ := load_iff_outcomesOf.mp hload
  have hprints : Tells fs outcomes _ (run color fs toPrint) := tells_run_sanitize hprint hload
  have hchecks : Tells fs outcomes _ (run color fs toCheck) := tells_run_check hcheck hload
  have hreports : Tells fs outcomes _ (run color fs toReport) := tells_run_check hreport hload
  have hout : (run color fs toReport).transcript.out =
      (Json.array (outcomes.map (·.entry.toJson))).pretty ++ "\n" := hreports.out
  refine ⟨by rw [hchecks.exit, hprints.exit], by rw [hreports.exit, hprints.exit], o, schema, _,
    outcomes.map (·.entry.toJson), houtcomes.configured, houtcomes.readSchema, houtcomes.resolved,
    ?_, fun inputs p alone hrequest hpaths => ?_, hout, hout ▸ parse_report houtcomes, ?_⟩
  · rw [hprints.exit, exitCode_eq_zero_iff, List.forall_mem_map]
    exact forall₂_congr fun x hx => (exit_runAt hload hx).symm
  · have halone : load fs { s with inputs := inputs } = loadAt fs s p := load_eq_loadAt hpaths
    rw [run, hrequest, runAt, ← halone]
    exact runBatch_eq_finish ..
  · rw [List.forall₂_map_left_iff, List.forall₂_map_right_iff, List.forall₂_same]
    intro x hx
    refine ⟨entryOf_entry houtcomes hx, ?_⟩
    rw [exit_runAt hload hx]
    exact (reportEntry_of_mem houtcomes hx).describes.accepted

theorem verbs_agree_mixed :
    request ("sanitize" :: mixedArguments mixedInputs) =
        .sanitize (mixedSettings mixedInputs) none false ∧
      request ("check" :: mixedArguments mixedInputs) = .check (mixedSettings mixedInputs) false ∧
      request ("check" :: "--json" :: mixedArguments mixedInputs) =
        .check (mixedSettings mixedInputs) true ∧
      (run false mixed ("sanitize" :: mixedArguments mixedInputs)).exit = 1 ∧
      (run false mixed ("check" :: mixedArguments mixedInputs)).exit = 1 ∧
      (run false mixed ("check" :: "--json" :: mixedArguments mixedInputs)).exit = 1 ∧
      (run false mixed ("sanitize" :: mixedArguments ["a.json"])).exit = 0 ∧
      (run false mixed ("check" :: "--json" :: mixedArguments mixedInputs)).transcript.out =
        String.join (mixedReport.map (· ++ "\n")) ∧
      Json.parse
          (run false mixed ("check" :: "--json" :: mixedArguments mixedInputs)).transcript.out =
        .ok (.array mixedEntries) := by
  obtain ⟨hprint, hcheck, hreport, halone⟩ := request_mixed
  obtain ⟨haccepted, hrejected, hmalformed⟩ := sanitize_mixed
  have hexit : (run false mixed ("sanitize" :: mixedArguments mixedInputs)).exit = 1 := by
    simp only [run, hprint, runBatch_eq_finish, load_mixed, tells_sanitize.exit]
    simp [exitCode, Outcome.isAccepted, hrejected, Except.isOk, Except.toBool]
  have hloads : (run false mixed ("sanitize" :: mixedArguments mixedInputs)).exit ≠ 2 := by
    simp [hexit]
  obtain ⟨hexitCheck, hexitReport, o, schema, paths, entries, ho, hschema, hpaths, -, halike, hout,
    hread, hentries⟩ := verbs_agree hprint hcheck hreport hloads
  cases ho
  rw [readSchema_mixed] at hschema
  cases hschema
  rw [paths_mixed] at hpaths
  cases hpaths
  simp only [mixedInputs, List.forall₂_cons_left_iff, List.forall₂_nil_left_iff] at hentries
  obtain ⟨first, _, ⟨hfirst, hexitFirst⟩,
    ⟨second, _, ⟨hsecond, -⟩, ⟨third, _, ⟨hthird, -⟩, rfl, rfl⟩, rfl⟩, rfl⟩ := hentries
  have hfirst : Describes "a.json" (sanitize {} "\x7b\"id\":1\x7d" _) first :=
    hfirst.describes_sanitize rfl rfl
  have hsecond : Describes "b.json" (sanitize {} "\x7b\"id\":\"one\"\x7d" _) second :=
    hsecond.describes_sanitize rfl rfl
  have hthird : Describes "c.json" (sanitize {} "\x7b\"id\"" _) third :=
    hthird.describes_sanitize rfl rfl
  rw [haccepted] at hfirst
  rw [hrejected] at hsecond
  rw [hmalformed] at hthird
  have hentries := entries_mixed hfirst.entry hsecond.entry hthird.entry
  have hexitAlone : (run false mixed ("sanitize" :: mixedArguments ["a.json"])).exit = 0 := by
    rw [halike ["a.json"] "a.json" _ halone (paths_of_plain (by decide +kernel))]
    exact hexitFirst.mp (hfirst.accepted.mpr ⟨_, rfl⟩)
  refine ⟨hprint, hcheck, hreport, hexit, by rw [hexitCheck, hexit], by rw [hexitReport, hexit],
    hexitAlone, ?_, ?_⟩
  · rw [hout, hentries, pretty_mixedEntries]
  · rw [hread, hentries]

end SchemaSieve.Command
