import SchemaSieve.Decimal.Digits
import SchemaSieve.Files.Path

/-!
# Glob patterns

A pattern is a path whose names may hold wildcards: `?` for a character, `*` for
any run of characters, `[ab]`, `[a-z]` and `[!a]` for a choice of characters,
and `**`, standing alone between slashes, for directories in any number.
-/

namespace SchemaSieve.Glob

structure Span where
  low : Char
  high : Char
deriving DecidableEq, Repr

def Span.holds (s : Span) (c : Char) : Bool := s.low ≤ c && c ≤ s.high

inductive Token where
  | char (c : Char)
  | any
  | run
  | choice (spans : List Span)
  | exclusion (spans : List Span)
  | directories
deriving DecidableEq, Repr

/-! ## Reading patterns -/

inductive Defect where
  | stars
  | mixedName
  | range
deriving DecidableEq, Repr

structure PatternError where
  position : Nat
  defect : Defect
deriving DecidableEq, Repr

def Defect.text : Defect → String
  | .stars => "wildcards are either regular `*` or recursive `**`"
  | .mixedName => "recursive wildcards must form a single path component"
  | .range => "invalid range pattern"

def PatternError.message (e : PatternError) : String :=
  "Pattern syntax error near position " ++ Decimal.natText e.position ++ ": " ++ e.defect.text

def spans : List Char → List Span
  | a :: '-' :: b :: cs => ⟨a, b⟩ :: spans cs
  | a :: cs => ⟨a, a⟩ :: spans cs
  | [] => []

/-- What stands before the closing bracket and after it.  The first character
never closes. -/
def bracketed? : List Char → Option (List Char × List Char)
  | [] => none
  | c :: cs =>
      match cs.dropWhile (· ≠ ']') with
      | [] => none
      | _ :: rest => some (c :: cs.takeWhile (· ≠ ']'), rest)

theorem length_of_bracketed? {cs body rest : List Char}
    (h : bracketed? cs = some (body, rest)) : rest.length < cs.length := by
  cases cs with
  | nil => simp [bracketed?] at h
  | cons c cs =>
      simp only [bracketed?] at h
      split at h
      · contradiction
      · rename_i d more hd
        obtain ⟨-, rfl⟩ := h
        have := (List.dropWhile_suffix (l := cs) (· ≠ ']')).length_le
        simp only [hd, List.length_cons] at this ⊢
        omega

def tokensFrom (i : Nat) (before : Option Char) (cs : List Char) :
    Except PatternError (List Token) :=
  match cs with
  | [] => .ok []
  | '?' :: cs => do
      let ts ← tokensFrom (i + 1) (some '?') cs
      .ok (.any :: ts)
  | '*' :: '*' :: '*' :: _ => .error ⟨i + 2, .stars⟩
  | '*' :: '*' :: cs =>
      if before.isSome && before ≠ some Path.slash then .error ⟨i - 1, .mixedName⟩
      else
        match cs with
        | [] => .ok [.directories]
        | c :: cs =>
            if c = Path.slash then do
              let ts ← tokensFrom (i + 3) (some c) cs
              .ok (.directories :: ts)
            else .error ⟨i + 2, .mixedName⟩
  | '*' :: cs => do
      let ts ← tokensFrom (i + 1) (some '*') cs
      .ok (.run :: ts)
  | '[' :: '!' :: cs =>
      match h : bracketed? cs with
      | none => .error ⟨i, .range⟩
      | some (body, rest) => do
          have := length_of_bracketed? h
          let ts ← tokensFrom (i + body.length + 3) (some ']') rest
          .ok (.exclusion (spans body) :: ts)
  | '[' :: cs =>
      match h : bracketed? cs with
      | none => .error ⟨i, .range⟩
      | some (body, rest) => do
          have := length_of_bracketed? h
          let ts ← tokensFrom (i + body.length + 2) (some ']') rest
          .ok (.choice (spans body) :: ts)
  | c :: cs => do
      let ts ← tokensFrom (i + 1) (some c) cs
      .ok (.char c :: ts)
termination_by cs.length
decreasing_by all_goals simp only [List.length_cons]; omega

def tokens (pattern : String) : Except PatternError (List Token) :=
  tokensFrom 0 none pattern.toList

/-! ## Parts -/

inductive Part where
  | name (s : String)
  | wild (ts : List Token)
  | directories
deriving DecidableEq, Repr

def Part.ofTokens (text : String) (ts : List Token) : Part :=
  if ts = [.directories] then .directories
  else if ts.all (fun t => match t with | .char _ => true | _ => false) then .name text
  else .wild ts

def merged : List Part → List Part
  | .directories :: .directories :: parts => merged (.directories :: parts)
  | part :: parts => part :: merged parts
  | [] => []

structure Pattern where
  absolute : Bool
  parts : List Part
  /-- A slash at the end admits directories only. -/
  onlyDirectories : Bool
deriving DecidableEq, Repr

namespace Pattern

def partTexts (cs : List Char) : List String :=
  let texts := (cs.splitOn Path.slash).map String.ofList
  if texts.length > 1 && texts.getLast? = some "" then texts.dropLast else texts

def parse (text : String) : Except PatternError Pattern := do
  let _ ← tokens text
  let cs := text.toList
  let absolute := cs.head? = some Path.slash
  let texts := partTexts (if absolute then cs.tail else cs)
  let parts ← texts.mapM fun t => do
    let ts ← tokens t
    .ok (Part.ofTokens t ts)
  .ok ⟨absolute, merged parts, cs.getLast? = some Path.slash⟩

def isWild (text : String) : Bool :=
  text.toList.any fun c => c = '*' || c = '?' || c = '['

end Pattern

/-! ## Matching names

A name is matched from its end.  With each character one verdict is kept for
every tail of the tokens, so the work grows with the product of both lengths.
-/

def Token.admits : Token → Char → Bool
  | .char a, c => a = c
  | .any, _ => true
  | .choice spans, c => spans.any (·.holds c)
  | .exclusion spans, c => !spans.any (·.holds c)
  | .run, _ => false
  | .directories, _ => false

def verdict (vs : List Bool) : Bool := vs.head?.getD false

/-- The verdicts of the tails of the tokens, the longest first, on a name
without characters. -/
def verdictsAtEnd : List Token → List Bool
  | [] => [true]
  | t :: ts =>
      let vs := verdictsAtEnd ts
      ((t = .run || t = .directories) && verdict vs) :: vs

/-- The verdicts on a name with one more character in front, from those on the
name without it. -/
def verdictsBefore (c : Char) : List Token → List Bool → List Bool
  | t :: ts, old =>
      let vs := verdictsBefore c ts old.tail
      (match t with
        | .run => verdict vs || verdict old
        | .directories => verdict vs
        | t => t.admits c && verdict old.tail) :: vs
  | [], _ => [false]

def verdicts (ts : List Token) : List Char → List Bool
  | [] => verdictsAtEnd ts
  | c :: cs => verdictsBefore c ts (verdicts ts cs)

def describes (ts : List Token) (cs : List Char) : Bool := verdict (verdicts ts cs)

theorem tail_verdicts_cons (t : Token) (ts : List Token) (cs : List Char) :
    (verdicts (t :: ts) cs).tail = verdicts ts cs := by
  induction cs with
  | nil => rfl
  | cons c cs ih => simp [verdicts, verdictsBefore, ih]

theorem describes_nil (cs : List Char) : describes [] cs = cs.isEmpty := by
  cases cs <;> rfl

theorem describes_run_nil (ts : List Token) :
    describes (.run :: ts) [] = describes ts [] := by
  simp [describes, verdicts, verdictsAtEnd, verdict]

theorem describes_run_cons (ts : List Token) (c : Char) (cs : List Char) :
    describes (.run :: ts) (c :: cs) =
      (describes ts (c :: cs) || describes (.run :: ts) cs) := by
  simp [describes, verdicts, verdictsBefore, tail_verdicts_cons, verdict]

theorem describes_directories (ts : List Token) (cs : List Char) :
    describes (.directories :: ts) cs = describes ts cs := by
  cases cs <;>
    simp [describes, verdicts, verdictsAtEnd, verdictsBefore, tail_verdicts_cons, verdict]

theorem describes_cons {t : Token} {ts : List Token} {c : Char} {cs : List Char}
    (hr : t ≠ .run) (hd : t ≠ .directories) :
    describes (t :: ts) (c :: cs) = (t.admits c && describes ts cs) := by
  cases t <;>
    simp_all [describes, verdicts, verdictsBefore, tail_verdicts_cons, verdict]

theorem describes_cons_nil {t : Token} {ts : List Token} (hr : t ≠ .run) (hd : t ≠ .directories) :
    describes (t :: ts) [] = false := by
  simp [describes, verdicts, verdictsAtEnd, verdict, hr, hd]

theorem describes_run_iff {ts : List Token} {cs : List Char} :
    describes (.run :: ts) cs = true ↔
      ∃ taken rest, cs = taken ++ rest ∧ describes ts rest = true := by
  induction cs with
  | nil => simp [describes_run_nil, and_assoc]
  | cons c cs ih =>
      rw [describes_run_cons, Bool.or_eq_true, ih]
      constructor
      · rintro (h | ⟨taken, rest, rfl, h⟩)
        · exact ⟨[], c :: cs, rfl, h⟩
        · exact ⟨c :: taken, rest, rfl, h⟩
      · rintro ⟨_ | ⟨d, taken⟩, rest, heq, h⟩
        · exact .inl (heq ▸ h)
        · cases heq
          exact .inr ⟨taken, rest, rfl, h⟩

inductive Matches : List Token → List Char → Prop
  | nil : Matches [] []
  | one {t : Token} {ts : List Token} {c : Char} {cs : List Char} (admits : t.admits c = true)
      (rest : Matches ts cs) : Matches (t :: ts) (c :: cs)
  | run {ts : List Token} (taken : List Char) {cs : List Char} (rest : Matches ts cs) :
      Matches (.run :: ts) (taken ++ cs)
  | directories {ts : List Token} {cs : List Char} (rest : Matches ts cs) :
      Matches (.directories :: ts) cs

theorem matches_cons_iff {t : Token} {ts : List Token} {cs : List Char} (hr : t ≠ .run)
    (hd : t ≠ .directories) :
    Matches (t :: ts) cs ↔ ∃ c rest, cs = c :: rest ∧ t.admits c = true ∧ Matches ts rest := by
  constructor
  · intro h
    cases h with
    | one admits rest => exact ⟨_, _, rfl, admits, rest⟩
    | run => exact absurd rfl hr
    | directories => exact absurd rfl hd
  · rintro ⟨c, rest, rfl, hadmits, hrest⟩
    exact .one hadmits hrest

theorem matches_run_iff {ts : List Token} {cs : List Char} :
    Matches (.run :: ts) cs ↔ ∃ taken rest, cs = taken ++ rest ∧ Matches ts rest := by
  constructor
  · intro h
    cases h with
    | one admits => exact absurd admits (by simp [Token.admits])
    | run taken rest => exact ⟨taken, _, rfl, rest⟩
  · rintro ⟨taken, rest, rfl, hrest⟩
    exact .run taken hrest

theorem matches_directories_iff {ts : List Token} {cs : List Char} :
    Matches (.directories :: ts) cs ↔ Matches ts cs := by
  constructor
  · intro h
    cases h with
    | one admits => exact absurd admits (by simp [Token.admits])
    | directories rest => exact rest
  · exact .directories

/-- The verdicts decide what matches, without trying how far each run goes. -/
theorem describes_iff_matches {ts : List Token} {cs : List Char} :
    describes ts cs = true ↔ Matches ts cs := by
  induction ts generalizing cs with
  | nil =>
      rw [describes_nil, List.isEmpty_iff]
      exact ⟨fun h => h ▸ .nil, fun h => by cases h; rfl⟩
  | cons t ts ih =>
      by_cases hr : t = .run
      · rw [hr, describes_run_iff, matches_run_iff]
        simp only [ih]
      by_cases hd : t = .directories
      · rw [hd, describes_directories, matches_directories_iff, ih]
      rw [matches_cons_iff hr hd]
      cases cs with
      | nil => simp [describes_cons_nil hr hd]
      | cons c cs => simp [describes_cons hr hd, ih, and_assoc]

def Part.admits : Part → String → Bool
  | .name s, text => s = text
  | .wild ts, text => describes ts text.toList
  | .directories, _ => true

/-- Only a pattern that starts with a point admits the names of a directory
itself and of the one above it. -/
def Part.specials : Part → List String
  | .wild (.char '.' :: ts) =>
      ["..", "."].filter fun name => describes (.char '.' :: ts) name.toList
  | _ => []

end SchemaSieve.Glob
