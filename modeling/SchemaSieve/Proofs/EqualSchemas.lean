import SchemaSieve.Proofs.DecidableEquality
import SchemaSieve.Proofs.Equality
import SchemaSieve.Proofs.Issues
import SchemaSieve.Proofs.NormalForm
import SchemaSieve.Proofs.RawForms

/-!
# Equal schemas

Schemas are compared without regard to the order of declarations, and what is malformed in
them is compared as JSON.  Both walks go along the document and look each name up, so equal
schemas give the same normal form, or the same violation, and the same issues but for the
fragments that issues about malformed types quote.

`Alike R` is this comparison with any relation between the fragments: equality of JSON in
general, and no fragments at all if nothing is malformed.
-/

namespace SchemaSieve

open Value Validation Normalization

namespace Descriptor

inductive DistinctNames : Descriptor → Prop
  | scalar (tag : ScalarTag) : DistinctNames (.scalar tag)
  | map {fields : Schema} (names : fields.names.Nodup)
      (types : ∀ f ∈ fields, DistinctNames f.2) : DistinctNames (.map fields)
  | array {element : Descriptor} (names : DistinctNames element) :
      DistinctNames (.array element)
  | malformed (defect : Defect) (raw : Json) : DistinctNames (.malformed defect raw)

/-- Types that declare the same, with malformed parts whose fragments are related. -/
inductive Alike (R : Json → Json → Prop) : Descriptor → Descriptor → Prop
  | scalar (tag : ScalarTag) : Alike R (.scalar tag) (.scalar tag)
  | map {s s' : Schema} (count : s.length = s'.length)
      (declared : ∀ name, name ∈ s.names ↔ name ∈ s'.names)
      (types : ∀ name d d', s.get? name = some d → s'.get? name = some d' → Alike R d d') :
      Alike R (.map s) (.map s')
  | array {d d' : Descriptor} (elements : Alike R d d') : Alike R (.array d) (.array d')
  | malformed (defect : Defect) {a b : Json} (fragments : R a b) :
      Alike R (.malformed defect a) (.malformed defect b)

theorem alike_of_equal {d d' : Descriptor} (hd : d.DistinctNames) (h : d.equal d' = true) :
    d.Alike (fun a b => a.equal b = true) d' := by
  induction hd generalizing d' with
  | scalar tag =>
      cases d' with
      | scalar tag' =>
          simp only [equal, decide_eq_true_eq] at h
          exact h ▸ .scalar tag
      | _ => simp [equal] at h
  | @map s names types ih =>
      cases d' with
      | map s' =>
          rw [equal_map_iff] at h
          obtain ⟨hcount, hfields⟩ := h
          have hagree : Members.Agree (fun d e => d.equal e = true) s s' :=
            Members.agree_of_found names hcount hfields
          refine .map hcount (fun name => hagree.mem_names_iff) fun name d d' hd hd' => ?_
          have hmem := Members.mem_of_get? hd
          obtain ⟨e, he, hequal⟩ := hfields (name, d) hmem
          rw [hd', Option.some.injEq] at he
          exact ih (name, d) hmem (he ▸ hequal)
      | _ => simp [equal] at h
  | array names ih =>
      cases d' with
      | array d' =>
          rw [equal] at h
          exact .array (ih h)
      | _ => simp [equal] at h
  | malformed defect raw =>
      cases d' with
      | malformed defect' raw' =>
          simp only [equal, Bool.and_eq_true, decide_eq_true_eq] at h
          obtain ⟨rfl, hraw⟩ := h
          exact .malformed defect hraw
      | _ => simp [equal] at h

namespace Alike

variable {R : Json → Json → Prop} {s s' : Schema} {d d' : Descriptor}

theorem strict (h : d.Alike R d')
    (hd : ∀ place defect raw, ¬ StandsAt (.malformed defect raw) place d) :
    d.Alike (fun _ _ => False) d' := by
  induction h with
  | scalar tag => exact .scalar tag
  | map count declared types ih =>
      refine .map count declared fun name d d' h h' => ih name d d' h h' ?_
      exact fun place defect raw hstands =>
        hd (.field name :: place) defect raw (.field (Members.mem_of_get? h) hstands)
  | array elements ih =>
      refine .array (ih fun place defect raw hstands => ?_)
      exact hd (.element :: place) defect raw (.element hstands)
  | malformed defect fragments => exact absurd .here (hd [] defect _)

theorem lookup (h : (Descriptor.map s).Alike R (.map s')) (name : String) :
    s.get? name = none ∧ s'.get? name = none ∨
      ∃ d d', s.get? name = some d ∧ s'.get? name = some d' ∧ d.Alike R d' := by
  cases h with
  | map count declared types =>
      have hname := declared name
      rw [Members.mem_names_iff_get?, Members.mem_names_iff_get?] at hname
      cases hd : s.get? name with
      | none =>
          refine .inl ⟨rfl, Option.eq_none_iff_forall_ne_some.mpr fun d' hd' => ?_⟩
          obtain ⟨d, hsome⟩ := hname.mpr ⟨d', hd'⟩
          rw [hd] at hsome
          cases hsome
      | some d =>
          obtain ⟨d', hd'⟩ := hname.mp ⟨d, hd⟩
          exact .inr ⟨d, d', rfl, hd', types name d d' hd hd'⟩

theorem length_eq (h : (Descriptor.map s).Alike R (.map s')) : s.length = s'.length := by
  cases h with
  | map count declared types => exact count

end Alike

end Descriptor

open Descriptor

variable {R : Json → Json → Prop} {s s' : Schema}

/-! ## Normal forms -/

namespace Normalization

def NormalAlike (R : Json → Json → Prop) (v : Value) : Prop :=
  ∀ p d d', d.Alike R d' → normalizeField p v d = normalizeField p v d'

theorem normalizeEntry_of_alike (h : (Descriptor.map s).Alike R (.map s')) (p : FieldPath)
    {e : String × Value} (he : NormalAlike R e.2) :
    normalizeEntry p s e = normalizeEntry p s' e := by
  unfold normalizeEntry
  rcases h.lookup e.1 with ⟨hd, hd'⟩ | ⟨d, d', hd, hd', halike⟩
  · rw [hd, hd']
  · rw [hd, hd']
    exact he (p.child e.1) d d' halike

theorem normalizeEntries_of_alike (h : (Descriptor.map s).Alike R (.map s')) (p : FieldPath)
    {entries : List (String × Value)} (hentries : ∀ e ∈ entries, NormalAlike R e.2) :
    normalizeEntries p entries s = normalizeEntries p entries s' := by
  induction entries with
  | nil => rw [normalizeEntries, normalizeEntries]
  | cons e entries ih =>
      obtain ⟨he, hentries⟩ := List.forall_mem_cons.mp hentries
      rw [normalizeEntries_cons, normalizeEntries_cons, normalizeEntry_of_alike h p he,
        ih hentries]

theorem normalizeElements_of_alike {d d' : Descriptor} (h : d.Alike R d') (p : FieldPath)
    {xs : List Value} (hxs : ∀ x ∈ xs, NormalAlike R x) :
    normalizeElements p xs d = normalizeElements p xs d' := by
  induction xs with
  | nil => rw [normalizeElements, normalizeElements]
  | cons x xs ih =>
      obtain ⟨hx, hxs⟩ := List.forall_mem_cons.mp hxs
      rw [normalizeElements, normalizeElements, hx p d d' h, ih hxs]

theorem normalAlike (v : Value) : NormalAlike R v := by
  induction v using elements_induction with
  | step v ih =>
      intro p d d' h
      cases h with
      | scalar tag => rfl
      | map count declared types =>
          have hlevel := normalizeEntries_of_alike (.map count declared types) p
            fun e he => ih e.2 (snd_mem_elements he)
          rw [normalizeField, normalizeField, hlevel]
      | array elements =>
          rw [normalizeField, normalizeField, normalizeElements_of_alike elements p ih]
      | malformed defect fragments => rw [normalizeField, normalizeField]

end Normalization

/-! ## Issues -/

namespace Validation

/-- One issue, or two about malformed types at the same path that quote related fragments. -/
inductive SameButFragment (R : Json → Json → Prop) : Issue → Issue → Prop
  | same (i : Issue) : SameButFragment R i i
  | malformed (p : FieldPath) (defect : Defect) {a b : Json} (fragments : R a b) :
      SameButFragment R ⟨p, .malformed defect a⟩ ⟨p, .malformed defect b⟩

theorem forall₂_same (issues : List Issue) :
    List.Forall₂ (SameButFragment R) issues issues :=
  List.forall₂_same.mpr fun i _ => .same i

theorem SameButFragment.code_eq {i j : Issue} (h : SameButFragment R i j) : j.code = i.code := by
  cases h with
  | same => rfl
  | malformed p defect fragments => cases defect <;> rfl

theorem SameButFragment.eq_of_strict {i j : Issue}
    (h : SameButFragment (fun _ _ => False) i j) : i = j := by
  cases h with
  | same => rfl
  | malformed p defect fragments => exact fragments.elim

def IssuesAlike (R : Json → Json → Prop) (v : Value) : Prop :=
  ∀ mode p d d', d.Alike R d' →
    List.Forall₂ (SameButFragment R) (checkField mode p v d) (checkField mode p v d')

variable {mode : ElementPaths}

theorem checkElement_of_alike {d d' : Descriptor} (h : d.Alike R d') (place : FieldPath)
    {x : Value} (hx : IssuesAlike R x) :
    List.Forall₂ (SameButFragment R) (checkElement mode place x d)
      (checkElement mode place x d') := by
  have hfield := hx mode place d d' h
  cases h with
  | scalar tag => exact forall₂_same _
  | _ => exact hfield

theorem checkElements_of_alike {d d' : Descriptor} (h : d.Alike R d') (p : FieldPath)
    {xs : List Value} (hxs : ∀ x ∈ xs, IssuesAlike R x) (index : Nat) :
    List.Forall₂ (SameButFragment R) (checkElements mode p index xs d)
      (checkElements mode p index xs d') := by
  induction xs generalizing index with
  | nil => simp
  | cons x xs ih =>
      obtain ⟨hx, hxs⟩ := List.forall_mem_cons.mp hxs
      rw [checkElements_cons, checkElements_cons]
      exact List.rel_append (checkElement_of_alike h _ hx) (ih hxs (index + 1))

theorem checkEntry_of_alike (h : (Descriptor.map s).Alike R (.map s')) (p : FieldPath)
    {e : String × Value} (he : IssuesAlike R e.2) :
    List.Forall₂ (SameButFragment R) (checkEntry mode p s e) (checkEntry mode p s' e) := by
  unfold checkEntry
  rcases h.lookup e.1 with ⟨hd, hd'⟩ | ⟨d, d', hd, hd', halike⟩
  · rw [hd, hd']
    exact forall₂_same _
  · rw [hd, hd']
    exact he mode (p.child e.1) d d' halike

theorem level_of_alike (h : (Descriptor.map s).Alike R (.map s')) (p : FieldPath) {v : Value}
    (hv : ∀ e ∈ v.entries, IssuesAlike R e.2) :
    List.Forall₂ (SameButFragment R)
      (checkCount p v s ++ v.entries.flatMap (checkEntry mode p s))
      (checkCount p v s' ++ v.entries.flatMap (checkEntry mode p s')) := by
  apply List.rel_append
  · rw [checkCount, checkCount, h.length_eq]
    exact forall₂_same _
  · apply forall₂_flatMap
    exact fun e he => checkEntry_of_alike h p (hv e he)

theorem issuesAlike (v : Value) : IssuesAlike R v := by
  induction v using elements_induction with
  | step v ih =>
      intro mode p d d' h
      cases h with
      | scalar tag => exact forall₂_same _
      | map count declared types =>
          rw [checkField_map, checkField_map]
          split
          · exact level_of_alike (.map count declared types) p
              fun e he => ih e.2 (snd_mem_elements he)
          · exact forall₂_same _
      | array elements =>
          rw [checkField_array, checkField_array]
          split
          · exact checkElements_of_alike elements p ih 0
          · exact forall₂_same _
      | malformed defect fragments =>
          rw [checkField_malformed, checkField_malformed]
          exact .cons (.malformed p defect fragments) .nil

theorem validate_of_alike (h : (Descriptor.map s).Alike R (.map s')) (v : Value) :
    List.Forall₂ (SameButFragment R) (validate mode v s) (validate mode v s') := by
  rw [validate_eq, validate_eq]
  split
  · exact level_of_alike h .root fun e _ => issuesAlike e.2
  · exact forall₂_same _

end Validation

theorem normalizeDocument_of_alike (h : (Descriptor.map s).Alike R (.map s')) (v : Value) :
    normalizeDocument v s = normalizeDocument v s' := by
  rw [normalizeDocument, normalizeDocument,
    normalizeEntries_of_alike h .root fun e _ => normalAlike e.2]

/-- Equal schemas have the same outcome for every document: the same normal form, or the same
violation at the same path, and issues of the same codes one by one.  If nothing in them is
malformed the issues are the same altogether. -/
theorem same_outcome_of_equal_schemas (hnames : (Descriptor.map s).DistinctNames)
    (hequal : (Descriptor.map s).equal (.map s') = true) (v : Value) :
    normalizeDocument v s = normalizeDocument v s' ∧
    (∀ mode, (validate mode v s).length = (validate mode v s').length ∧
      (validate mode v s).map Issue.code = (validate mode v s').map Issue.code ∧
      (validate mode v s).map Issue.severity = (validate mode v s').map Issue.severity) ∧
    ((∀ place defect raw, ¬ StandsAt (.malformed defect raw) place (.map s)) →
      ∀ mode, validate mode v s = validate mode v s') := by
  have halike := alike_of_equal hnames hequal
  refine ⟨normalizeDocument_of_alike halike v, fun mode => ?_, fun hformed mode => ?_⟩
  · have hissues : List.Forall₂ (SameButFragment _) (validate mode v s) (validate mode v s') :=
      validate_of_alike halike v
    have hcodes : (validate mode v s).map Issue.code = (validate mode v s').map Issue.code :=
      (map_eq_of_forall₂ (fun _ _ h => h.code_eq) hissues).symm
    refine ⟨hissues.length_eq, hcodes, ?_⟩
    have hseverities := congrArg (List.map IssueCode.severity) hcodes
    rwa [List.map_map, List.map_map] at hseverities
  · have hissues : List.Forall₂ (SameButFragment fun _ _ => False) (validate mode v s)
        (validate mode v s') := validate_of_alike (halike.strict hformed) v
    rw [← List.forall₂_eq_eq_eq]
    exact hissues.imp fun _ _ h => h.eq_of_strict

theorem same_outcome_of_equal_schemas_reordered :
    let point : Schema := [("x", .scalar .int), ("y", .scalar .float)]
    let raw : Json := .object [("k", .null), ("z", .bool true)]
    let raw' : Json := .object [("z", .bool true), ("k", .null)]
    let s : Schema := [("at", .array (.map point)), ("odd", .malformed .unknownScalar raw)]
    let s' : Schema :=
      [("odd", .malformed .unknownScalar raw'), ("at", .array (.map point.reverse))]
    let v : Value := .mapping
      [("at", .sequence [.mapping [("y", .string "1e1")], .mapping []]), ("odd", .integer 1)]
    (Descriptor.map s).DistinctNames ∧ (Descriptor.map s).equal (.map s') = true ∧
      normalizeDocument v s' = normalizeDocument v s ∧
      (validate .shared v s').map Issue.code = (validate .shared v s).map Issue.code ∧
      validate .shared v s' ≠ validate .shared v s ∧
      validate .shared v [("at", .array (.map point))] =
        validate .shared v [("at", .array (.map point.reverse))] := by
  intro point raw raw' s s' v
  have hpoint : (Descriptor.array (.map point)).DistinctNames := by
    refine .array (.map (by decide) fun f hf => ?_)
    rcases List.mem_pair.mp hf with rfl | rfl <;> exact .scalar _
  have hs : (Descriptor.map s).DistinctNames := by
    refine .map (by decide) fun f hf => ?_
    rcases List.mem_pair.mp hf with rfl | rfl
    · exact hpoint
    · exact .malformed _ _
  have hequal : (Descriptor.map s).equal (.map s') = true := by decide +kernel
  obtain ⟨hnormal, hissues, -⟩ := same_outcome_of_equal_schemas hs hequal v
  have ht : (Descriptor.map [("at", .array (.map point))]).DistinctNames := by
    refine .map (by decide) fun f hf => ?_
    rw [List.mem_singleton.mp hf]
    exact hpoint
  have htequal : (Descriptor.map [("at", .array (.map point))]).equal
      (.map [("at", .array (.map point.reverse))]) = true := by decide +kernel
  obtain ⟨-, -, hformed⟩ := same_outcome_of_equal_schemas ht htequal v
  refine ⟨hs, hequal, hnormal.symm, (hissues .shared).2.1.symm, ?_, hformed ?_ .shared⟩
  · have hlast : (validate .shared v s).getLast? =
        some ⟨⟨["odd"]⟩, .malformed .unknownScalar raw⟩ := by decide +kernel
    have hlast' : (validate .shared v s').getLast? =
        some ⟨⟨["odd"]⟩, .malformed .unknownScalar raw'⟩ := by decide +kernel
    intro h
    rw [h, hlast] at hlast'
    simp [raw, raw'] at hlast'
  · rintro place defect raw hstands
    obtain - | ⟨hat, hstands⟩ := hstands
    cases List.mem_singleton.mp hat
    obtain - | - | hstands := hstands
    obtain - | ⟨hfield, hstands⟩ := hstands
    rcases List.mem_pair.mp hfield with h | h <;> cases h <;> cases hstands

end SchemaSieve
