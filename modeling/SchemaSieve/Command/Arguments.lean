import SchemaSieve.Decimal.Numeral

/-!
# Command lines

A command line names a verb and its options.  Options are read from left to
right; the first thing that is wrong, or a request for help, ends the reading.

A value follows its option as the next argument, after an equals sign or, for a
one-letter option, at once.  Only an argument that is a lone dash or has no dash
in front can be a value of its own.  Inputs may be several in a row and may come
again; every other option comes at most once.
-/

namespace SchemaSieve.Command

inductive Verb where
  | sanitize
  | check
deriving DecidableEq, Repr

inductive Key where
  | schema
  | input
  | pointer
  | config
  | allowWarnings
  | indexedElementPaths
  | maxDepth
  | out
  | compact
  | json
  | help
deriving DecidableEq, Repr

namespace Key

def longName : Key → String
  | .schema => "schema"
  | .input => "input"
  | .pointer => "json-pointer"
  | .config => "config"
  | .allowWarnings => "allow-warnings"
  | .indexedElementPaths => "indexed-element-paths"
  | .maxDepth => "max-depth"
  | .out => "out"
  | .compact => "compact"
  | .json => "json"
  | .help => "help"

def letter? : Key → Option Char
  | .schema => some 's'
  | .input => some 'i'
  | .out => some 'o'
  | .help => some 'h'
  | _ => none

def isFlag : Key → Bool
  | .allowWarnings | .indexedElementPaths | .compact | .json | .help => true
  | _ => false

def ofVerb (verb : Verb) : List Key :=
  [.schema, .input, .pointer, .config, .allowWarnings, .indexedElementPaths, .maxDepth, .help] ++
    match verb with
    | .sanitize => [.out, .compact]
    | .check => [.json]

end Key

structure Given where
  schema : Option String := none
  inputs : List String := []
  pointer : Option String := none
  config : Option String := none
  allowWarnings : Bool := false
  indexedElementPaths : Bool := false
  maxDepth : Option UInt64 := none
  out : Option String := none
  compact : Bool := false
  json : Bool := false
deriving DecidableEq, Repr

inductive Stop where
  | misuse
  | help
deriving DecidableEq, Repr

namespace Given

def setOnce {α : Type} (old : Option α) (a : α) : Except Stop (Option α) :=
  if old.isSome then .error .misuse else .ok (some a)

def path (value : String) : Except Stop String :=
  if value = "" then .error .misuse else .ok value

def size (value : String) : Except Stop UInt64 :=
  match Decimal.readUnsigned? value.toList with
  | some n => if n < 0x10000000000000000 then .ok (.ofNat n) else .error .misuse
  | none => .error .misuse

def flagOnce (old : Bool) : Except Stop Bool := if old then .error .misuse else .ok true

def setFlag (g : Given) : Key → Except Stop Given
  | .allowWarnings => return { g with allowWarnings := ← flagOnce g.allowWarnings }
  | .indexedElementPaths =>
      return { g with indexedElementPaths := ← flagOnce g.indexedElementPaths }
  | .compact => return { g with compact := ← flagOnce g.compact }
  | .json => return { g with json := ← flagOnce g.json }
  | .help => .error .help
  | _ => .error .misuse

def setValue (g : Given) (value : String) : Key → Except Stop Given
  | .schema => return { g with schema := ← setOnce g.schema (← path value) }
  | .input => .ok { g with inputs := g.inputs ++ [value] }
  | .pointer => return { g with pointer := ← setOnce g.pointer value }
  | .config => return { g with config := ← setOnce g.config (← path value) }
  | .maxDepth => return { g with maxDepth := ← setOnce g.maxDepth (← size value) }
  | .out => return { g with out := ← setOnce g.out (← path value) }
  | _ => .error .misuse

end Given

/-! ## Arguments -/

def isOption (argument : String) : Bool :=
  match argument.toList with
  | '-' :: _ :: _ => true
  | _ => false

structure Written where
  key : Key
  attached : Option String
deriving DecidableEq, Repr

def readLong (keys : List Key) (cs : List Char) : Option Written := do
  let name := String.ofList (cs.takeWhile (· ≠ '='))
  let key ← keys.find? (·.longName = name)
  match cs.dropWhile (· ≠ '=') with
  | [] => some ⟨key, none⟩
  | _ :: value => some ⟨key, some (String.ofList value)⟩

/-- A one-letter key.  A value that is attached may follow an equals sign. -/
def readShort (keys : List Key) (c : Char) (cs : List Char) : Option Written := do
  let key ← keys.find? (·.letter? = some c)
  match cs with
  | [] => some ⟨key, none⟩
  | '=' :: value => some ⟨key, some (String.ofList value)⟩
  | value => some ⟨key, some (String.ofList value)⟩

/-- The key of an argument that starts with a dash.  Letters behind a flag do
not matter where the flag itself ends the reading. -/
def readKey (keys : List Key) (argument : String) : Except Stop Written :=
  match argument.toList with
  | '-' :: '-' :: cs =>
      match readLong keys cs with
      | some w => if w.key.isFlag && w.attached.isSome then .error .misuse else .ok w
      | none => .error .misuse
  | '-' :: c :: cs =>
      match readShort keys c cs with
      | some w => if w.key.isFlag then .ok { w with attached := none } else .ok w
      | none => .error .misuse
  | _ => .error .misuse

def valuesFor (key : Key) (arguments : List String) : List String :=
  match key with
  | .input => arguments.takeWhile (!isOption ·)
  | _ => (arguments.take 1).filter (!isOption ·)

theorem length_drop_lt (n : Nat) (argument : String) (rest : List String) :
    (rest.drop n).length < (argument :: rest).length := by
  simp only [List.length_drop, List.length_cons]
  omega

def readOptions (keys : List Key) (g : Given) (arguments : List String) :
    Except Stop Given :=
  match arguments with
  | [] => .ok g
  | argument :: rest =>
      if argument = "--" then if rest.isEmpty then .ok g else .error .misuse
      else do
        let w ← readKey keys argument
        if w.key.isFlag then
          let g ← g.setFlag w.key
          readOptions keys g rest
        else
          match w.attached with
          | some value =>
              let g ← g.setValue value w.key
              readOptions keys g rest
          | none =>
              let values := valuesFor w.key rest
              if values.isEmpty then .error .misuse
              else
                let g ← values.foldlM (fun g v => g.setValue v w.key) g
                readOptions keys g (rest.drop values.length)
termination_by arguments.length
decreasing_by
  · simp
  · simp
  · exact length_drop_lt _ _ _

/-! ## Requests -/

structure Settings where
  schema : String
  inputs : List String
  pointer : Option String
  config : Option String
  allowWarnings : Bool
  indexedElementPaths : Bool
  maxDepth : Option UInt64
deriving DecidableEq, Repr

inductive Request where
  | sanitize (settings : Settings) (out : Option String) (compact : Bool)
  | check (settings : Settings) (json : Bool)
  | help
  | version
  | misuse
deriving DecidableEq, Repr

def Given.settings? (g : Given) : Option Settings :=
  match g.schema with
  | some schema =>
      if g.inputs.isEmpty then none
      else
        some ⟨schema, g.inputs, g.pointer, g.config, g.allowWarnings, g.indexedElementPaths,
          g.maxDepth⟩
  | none => none

def requestOf (verb : Verb) (arguments : List String) : Request :=
  match readOptions (Key.ofVerb verb) {} arguments with
  | .error .help => .help
  | .error .misuse => .misuse
  | .ok g =>
      match g.settings?, verb with
      | some s, .sanitize => .sanitize s g.out g.compact
      | some s, .check => .check s g.json
      | none, _ => .misuse

def request : List String → Request
  | "sanitize" :: arguments => requestOf .sanitize arguments
  | "check" :: arguments => requestOf .check arguments
  | ["help"] | ["help", "sanitize"] | ["help", "check"] | ["help", "help"] => .help
  | argument :: _ =>
      if argument = "--help" then .help
      else if argument = "--version" then .version
      else
        match argument.toList with
        | '-' :: 'h' :: _ => .help
        | '-' :: 'V' :: _ => .version
        | _ => .misuse
  | [] => .misuse

end SchemaSieve.Command
