import SchemaSieve.Proofs.DecidableEquality
import SchemaSieve.Proofs.Idempotence
import SchemaSieve.Proofs.Names

/-!
# Depth by visits

The depth of a tree is found by visiting its values one at a time.  Each visit takes one of
the waiting values, notes the level it is on and lets its elements wait instead.  Which value
is taken, and where the elements are put, does not matter: every visit keeps the bounds of what
will be reached and brings the number of values still to come down by one.  So the visits end
when each value has had its own, at the recursive depth.
-/

namespace SchemaSieve.Value

/-- A search for the depth: the level reached so far, and the values waiting, each with the
number of containers around it. -/
structure Search where
  reached : Nat
  waiting : List (Value × Nat)

namespace Search

def start (v : Value) : Search := ⟨0, [(v, 0)]⟩

def level (v : Value) (d : Nat) : Nat := if v.isContainer then d + 1 else d

/-- Any waiting value is visited, and its elements wait somewhere among the others. -/
inductive Visit : Search → Search → Prop
  | intro {reached d : Nat} {v : Value} {waiting waiting' rest : List (Value × Nat)}
      (taken : waiting.Perm ((v, d) :: rest))
      (left : waiting'.Perm (v.elements.map (·, d + 1) ++ rest)) :
      Visit ⟨reached, waiting⟩ ⟨max reached (level v d), waiting'⟩

inductive Visits : Nat → Search → Search → Prop
  | refl (s : Search) : Visits 0 s s
  | next {k : Nat} {s t u : Search} (visit : Visit s t) (later : Visits k t u) :
      Visits (k + 1) s u

def step : Search → Search
  | ⟨reached, []⟩ => ⟨reached, []⟩
  | ⟨reached, (v, d) :: waiting⟩ =>
      ⟨max reached (level v d), v.elements.map (·, d + 1) ++ waiting⟩

def pop (s : Search) : Search :=
  match s.waiting.getLast? with
  | none => s
  | some (v, d) =>
      ⟨max s.reached (level v d), s.waiting.dropLast ++ v.elements.map (·, d + 1)⟩

variable {s t : Search} {v : Value} {d k n : Nat}

theorem deepest_step (s : Search) :
    deepest s.step.reached s.step.waiting = deepest s.reached s.waiting := by
  obtain ⟨reached, _ | ⟨⟨v, d⟩, waiting⟩⟩ := s
  · rfl
  · rw [deepest]
    rfl

theorem deepest_iterate_step (k : Nat) (s : Search) :
    deepest (step^[k] s).reached (step^[k] s).waiting = deepest s.reached s.waiting := by
  induction k generalizing s with
  | zero => rfl
  | succ k ih => rw [Function.iterate_succ_apply, ih, deepest_step]

theorem visit_step (h : s.waiting ≠ []) : Visit s s.step := by
  obtain ⟨reached, _ | ⟨⟨v, d⟩, waiting⟩⟩ := s
  · exact absurd rfl h
  · exact .intro (.refl _) (.refl _)

theorem visit_pop (h : s.waiting ≠ []) : Visit s s.pop := by
  obtain ⟨reached, waiting⟩ := s
  obtain ⟨rest, ⟨v, d⟩, rfl⟩ := (List.eq_nil_or_concat' waiting).resolve_left h
  have hpop : pop ⟨reached, rest ++ [(v, d)]⟩ =
      ⟨max reached (level v d), rest ++ v.elements.map (·, d + 1)⟩ := by simp [pop]
  rw [hpop]
  exact .intro List.perm_append_comm List.perm_append_comm

/-! ## Values to come -/

theorem sizeItems_perm {xs ys : List Value} (h : xs.Perm ys) : sizeItems xs = sizeItems ys := by
  induction h with
  | nil => rfl
  | cons x _ ih => rw [sizeItems, sizeItems, ih]
  | swap x y xs => simp only [sizeItems, Nat.add_left_comm]
  | trans _ _ ih₁ ih₂ => exact ih₁.trans ih₂

theorem size_eq (v : Value) : v.size = 1 + sizeItems v.elements := by
  cases v <;> simp [size, elements, sizeItems, sizeMembers_eq_sizeItems]

def remaining (s : Search) : Nat := sizeItems (s.waiting.map Prod.fst)

theorem remaining_start (v : Value) : (start v).remaining = v.size := rfl

theorem remaining_eq_zero_iff : s.remaining = 0 ↔ s.waiting = [] := by
  obtain ⟨reached, _ | ⟨⟨v, d⟩, waiting⟩⟩ := s
  · exact iff_of_true rfl rfl
  · have hpos := v.size_pos
    have hne : v.size + sizeItems (waiting.map Prod.fst) ≠ 0 := by omega
    exact iff_of_false hne (List.cons_ne_nil _ _)

theorem Visit.remaining (h : Visit s t) : s.remaining = t.remaining + 1 := by
  obtain @⟨_, d, v, waiting, waiting', rest, taken, left⟩ := h
  have helements : (v.elements.map (·, d + 1)).map Prod.fst = v.elements := by
    rw [List.map_map]
    exact List.map_id _
  rw [Search.remaining, Search.remaining, sizeItems_perm (taken.map Prod.fst),
    sizeItems_perm (left.map Prod.fst), List.map_append, helements, sizeItems_append,
    List.map_cons, sizeItems, size_eq v]
  omega

theorem Visits.remaining (h : Visits k s t) : s.remaining = t.remaining + k := by
  induction h with
  | refl s => rfl
  | next visit _ ih => rw [visit.remaining, ih, Nat.add_assoc]

/-! ## Levels to come -/

def Within (n : Nat) (s : Search) : Prop :=
  s.reached ≤ n ∧ ∀ p ∈ s.waiting, p.2 + p.1.nesting ≤ n

theorem within_start_iff : (start v).Within n ↔ v.nesting ≤ n := by
  simp [Within, start]

theorem level_le_iff :
    (level v d ≤ n ∧ ∀ x ∈ v.elements, d + 1 + x.nesting ≤ n) ↔ d + v.nesting ≤ n := by
  cases hv : v.isContainer with
  | false => simp [level, hv, elements_of_not_container hv, nesting_of_not_container hv]
  | true =>
      have hlevel : level v d = d + 1 := by simp [level, hv]
      rw [hlevel, nesting_of_container hv]
      constructor
      · rintro ⟨hhere, hbelow⟩
        have hitems : nestingItems v.elements ≤ n - (d + 1) := by
          refine nestingItems_le_iff.mpr fun x hx => ?_
          have hx' := hbelow x hx
          omega
        omega
      · intro h
        refine ⟨by omega, fun x hx => ?_⟩
        have hx' := nestingItems_le_iff.mp (Nat.le_refl _) x hx
        omega

theorem Visit.within_iff (h : Visit s t) : t.Within n ↔ s.Within n := by
  obtain @⟨reached, d, v, waiting, waiting', rest, taken, left⟩ := h
  have helements : (∀ p ∈ v.elements.map (·, d + 1), p.2 + p.1.nesting ≤ n) ↔
      ∀ x ∈ v.elements, d + 1 + x.nesting ≤ n := List.forall_mem_map
  simp only [Within, taken.mem_iff, left.mem_iff, List.forall_mem_append, List.forall_mem_cons,
    helements, Nat.max_le, ← level_le_iff (v := v), and_assoc]

theorem Visits.within_iff (h : Visits k s t) : t.Within n ↔ s.Within n := by
  induction h with
  | refl s => rfl
  | next visit _ ih => rw [ih, visit.within_iff]

theorem Visits.reached_eq (h : Visits k (start v) t) (hend : t.waiting = []) :
    t.reached = v.nesting := by
  refine eq_of_forall_ge_iff fun n => ?_
  rw [← within_start_iff, ← h.within_iff, Within, hend]
  simp

/-! ## A choice of visits -/

section Choice

variable {next : Search → Search} (hnext : ∀ s, s.waiting ≠ [] → Visit s (next s))
include hnext

theorem visits_iterate (h : k ≤ s.remaining) : Visits k s (next^[k] s) := by
  induction k generalizing s with
  | zero => exact .refl s
  | succ k ih =>
      have hwaiting : s.waiting ≠ [] := by
        rw [ne_eq, ← remaining_eq_zero_iff]
        omega
      have hvisit := hnext s hwaiting
      have hremaining := hvisit.remaining
      rw [Function.iterate_succ_apply]
      exact .next hvisit (ih (by omega))

theorem iterate_start (v : Value) : next^[v.size] (start v) = ⟨v.depth, []⟩ := by
  have hvisits : Visits v.size (start v) (next^[v.size] (start v)) :=
    visits_iterate hnext (Nat.le_refl _)
  generalize next^[v.size] (start v) = t at hvisits
  have hend : t.waiting = [] := by
    have hremaining := hvisits.remaining
    rw [remaining_start] at hremaining
    exact remaining_eq_zero_iff.mp (by omega)
  rw [depth_eq_nesting, ← hvisits.reached_eq hend, ← hend]

end Choice

end Search

theorem depth_eq (v : Value) :
    v.depth = if v.isContainer then 1 + (v.elements.map depth).foldr max 0 else 0 := by
  have hmap : v.elements.map depth = v.elements.map nesting :=
    List.map_congr_left fun x _ => depth_eq_nesting x
  rw [depth_eq_nesting, hmap, ← nestingItems_eq_foldr]
  cases hv : v.isContainer with
  | false => exact nesting_of_not_container hv
  | true => exact nesting_of_container hv

end SchemaSieve.Value

namespace SchemaSieve

open Value Normalization

/-- The depth of a value is the one that the recursion over its elements gives.  It is found by
one visit to each value of the tree, whether the value taken is the first or the last that waits,
and what is left to visit always leads to it.  Visits in any order end after as many, with the
same depth.  A normal form is as deep as the value it was made from. -/
theorem depth_by_visits (v : Value) :
    v.depth = v.nesting ∧
    v.depth = (if v.isContainer then 1 + (v.elements.map depth).foldr max 0 else 0) ∧
    (∀ k, deepest (Search.step^[k] (.start v)).reached (Search.step^[k] (.start v)).waiting =
      v.depth) ∧
    Search.step^[v.size] (.start v) = ⟨v.depth, []⟩ ∧
    Search.pop^[v.size] (.start v) = ⟨v.depth, []⟩ ∧
    (∀ k t, Search.Visits k (.start v) t →
      (t.waiting ≠ [] ↔ k < v.size) ∧ (t.waiting ≠ [] → ∃ u, Search.Visit t u) ∧
        (t.waiting = [] → k = v.size ∧ t.reached = v.depth)) ∧
    (∀ d w, normalize v d = .ok w → w.depth = v.depth) ∧
    (∀ schema w, normalizeDocument v schema = .ok w → w.depth = v.depth) := by
  refine ⟨depth_eq_nesting v, depth_eq v, fun k => Search.deepest_iterate_step k (.start v),
    Search.iterate_start (fun _ => Search.visit_step) v,
    Search.iterate_start (fun _ => Search.visit_pop) v, fun k t h => ?_,
    fun d w h => ?_, fun schema w => depth_of_normalizeDocument⟩
  · have hremaining := h.remaining
    rw [Search.remaining_start] at hremaining
    have hempty := Search.remaining_eq_zero_iff (s := t)
    refine ⟨?_, fun hwaiting => ⟨_, Search.visit_step hwaiting⟩, fun hend => ⟨?_, ?_⟩⟩
    · rw [ne_eq, ← hempty]
      omega
    · have hzero := hempty.mpr hend
      omega
    · rw [depth_eq_nesting, h.reached_eq hend]
  · rw [depth_eq_nesting, depth_eq_nesting]
    exact nesting_of_isNormalForm h

theorem depth_by_visits_mixed :
    let v : Value := .mapping [("a", .sequence [.mapping [("b", .sequence [.sequence []])],
      .mapping [("b", .mapping [])]])]
    let schema : Schema := [("a", .array (.map [("b", .array (.array (.scalar .int)))]))]
    let w : Value := .mapping [("a", .sequence [.mapping [("b", .sequence [.sequence []])],
      .mapping [("b", .sequence [])]])]
    normalizeDocument v schema = .ok w ∧ v.depth = 5 ∧ w.depth = 5 ∧
      Search.step^[7] (.start v) = ⟨5, []⟩ ∧ Search.pop^[7] (.start v) = ⟨5, []⟩ := by
  intro v schema w
  have hnormal : normalizeDocument v schema = .ok w := by decide +kernel
  have hsize : v.size = 7 := by decide +kernel
  obtain ⟨hnesting, -, -, hsteps, hpops, -, -, hkept⟩ := depth_by_visits v
  have hdepth : v.depth = 5 := hnesting.trans (by decide +kernel)
  rw [hsize, hdepth] at hsteps hpops
  exact ⟨hnormal, hdepth, (hkept schema w hnormal).trans hdepth, hsteps, hpops⟩

end SchemaSieve
