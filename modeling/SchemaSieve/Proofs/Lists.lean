import Mathlib.Data.List.Forall2
import Mathlib.Data.List.Perm.Basic

/-!
# Lists in step

Two lists of equal length whose members are related one by one: what such a
relation may use of its left side, when a right side exists, and what carries
over from one list to the other.  A list is in step with its own image when the
function leaves its members alone.  A list of computations is in step with their
results when all of them succeed.
-/

namespace SchemaSieve

variable {α β γ : Type} {R S : α → β → Prop} {xs : List α} {ys : List β}

theorem forall₂_imp_of_mem (himp : ∀ x y, x ∈ xs → R x y → S x y)
    (h : List.Forall₂ R xs ys) : List.Forall₂ S xs ys := by
  have hmem : List.Forall₂ (fun x y => x ∈ xs ∧ R x y) xs ys :=
    (List.forall₂_and_left xs ys).mpr ⟨fun _ hx => hx, h⟩
  exact hmem.imp fun x y hxy => himp x y hxy.1 hxy.2

theorem forall₂_imp_of_mem_both (himp : ∀ x y, x ∈ xs → y ∈ ys → R x y → S x y)
    (h : List.Forall₂ R xs ys) : List.Forall₂ S xs ys := by
  have hright : List.Forall₂ (fun x y => y ∈ ys ∧ R x y) xs ys :=
    (forall₂_imp_of_mem (fun _ _ hy hxy => ⟨hy, hxy⟩) h.flip).flip
  exact forall₂_imp_of_mem (fun x y hx hxy => himp x y hx hxy.1 hxy.2) hright

theorem exists_forall₂_iff : (∃ ys, List.Forall₂ R xs ys) ↔ ∀ x ∈ xs, ∃ y, R x y := by
  induction xs with
  | nil => simp
  | cons x xs ih =>
      simp only [List.forall₂_cons_left_iff, List.forall_mem_cons, ← ih]
      constructor
      · rintro ⟨_, y, ys, hxy, hys, rfl⟩
        exact ⟨⟨y, hxy⟩, ys, hys⟩
      · rintro ⟨⟨y, hxy⟩, ys, hys⟩
        exact ⟨_, y, ys, hxy, hys, rfl⟩

theorem exists_mem_left_of_forall₂ (h : List.Forall₂ R xs ys) :
    ∀ y ∈ ys, ∃ x ∈ xs, R x y := by
  induction h with
  | nil => simp
  | cons hxy _ ih =>
      refine List.forall_mem_cons.mpr ⟨⟨_, List.mem_cons_self .., hxy⟩, fun y hy => ?_⟩
      obtain ⟨x, hx, hR⟩ := ih y hy
      exact ⟨x, List.mem_cons_of_mem _ hx, hR⟩

theorem exists_mem_right_of_forall₂ (h : List.Forall₂ R xs ys) :
    ∀ x ∈ xs, ∃ y ∈ ys, R x y :=
  exists_mem_left_of_forall₂ h.flip

theorem rel_getElem? (h : List.Forall₂ R xs ys) (i : Nat) : Option.Rel R xs[i]? ys[i]? := by
  induction h generalizing i with
  | nil => exact .none
  | cons hxy _ ih =>
      cases i with
      | zero => exact .some hxy
      | succ i => simpa using ih i

theorem map_eq_of_forall₂ {f : α → γ} {g : β → γ} (himp : ∀ x y, R x y → g y = f x)
    (h : List.Forall₂ R xs ys) : ys.map g = xs.map f := by
  induction h with
  | nil => rfl
  | cons hxy _ ih => rw [List.map_cons, List.map_cons, ih, himp _ _ hxy]

theorem flatMap_eq_of_forall₂ {f : α → List γ} {g : β → List γ}
    (himp : ∀ x y, R x y → g y = f x) (h : List.Forall₂ R xs ys) :
    ys.flatMap g = xs.flatMap f := by
  rw [List.flatMap_def, List.flatMap_def, map_eq_of_forall₂ himp h]

theorem forall₂_flatMap {f : γ → List α} {g : γ → List β} {zs : List γ}
    (h : ∀ z ∈ zs, List.Forall₂ R (f z) (g z)) :
    List.Forall₂ R (zs.flatMap f) (zs.flatMap g) := by
  rw [List.flatMap_def, List.flatMap_def]
  apply List.rel_flatten
  rw [List.forall₂_map_left_iff, List.forall₂_map_right_iff, List.forall₂_same]
  exact h

theorem perm_flatMap_of_forall₂ {f : α → List γ} {g : β → List γ} (h : List.Forall₂ R xs ys)
    (hR : ∀ x y, R x y → (f x).Perm (g y)) : (xs.flatMap f).Perm (ys.flatMap g) := by
  rw [List.flatMap_def, List.flatMap_def]
  apply List.Perm.flatten_congr
  rw [List.forall₂_map_left_iff, List.forall₂_map_right_iff]
  exact h.imp hR

theorem exists_square {δ : Type} {S : α → γ → Prop} {T : γ → δ → Prop} {U : β → δ → Prop}
    {zs : List γ} (hR : List.Forall₂ R xs ys) (hS : List.Forall₂ S xs zs)
    (h : ∀ x y z, R x y → S x z → ∃ u, T z u ∧ U y u) :
    ∃ us, List.Forall₂ T zs us ∧ List.Forall₂ U ys us := by
  induction hR generalizing zs with
  | nil =>
      cases hS
      exact ⟨[], .nil, .nil⟩
  | cons hxy _ ih =>
      obtain - | ⟨hxz, hS⟩ := hS
      obtain ⟨u, hzu, hyu⟩ := h _ _ _ hxy hxz
      obtain ⟨us, hzs, hys⟩ := ih hS
      exact ⟨u :: us, .cons hzu hzs, .cons hyu hys⟩

theorem forall₂_comp {S : β → γ → Prop} {T : α → γ → Prop} {zs : List γ}
    (h : ∀ x y z, R x y → S y z → T x z) (hR : List.Forall₂ R xs ys)
    (hS : List.Forall₂ S ys zs) : List.Forall₂ T xs zs := by
  induction hR generalizing zs with
  | nil =>
      cases hS
      exact .nil
  | cons hxy _ ih =>
      obtain - | ⟨hyz, hS⟩ := hS
      exact .cons (h _ _ _ hxy hyz) (ih hS)

theorem forall₂_pairs_iff {ps : List (γ × α)} {qs : List (γ × β)} :
    List.Forall₂ (fun p q => p.1 = q.1 ∧ R p.2 q.2) ps qs ↔
      ps.map Prod.fst = qs.map Prod.fst ∧
        List.Forall₂ R (ps.map Prod.snd) (qs.map Prod.snd) := by
  induction ps generalizing qs with
  | nil => cases qs <;> simp
  | cons p ps ih =>
      cases qs with
      | nil => simp
      | cons q qs =>
          rw [List.forall₂_cons, ih]
          simp [and_assoc, and_left_comm]

theorem mapM_eq_ok_iff {ε : Type} {f : α → Except ε β} :
    xs.mapM f = .ok ys ↔ List.Forall₂ (fun x y => f x = .ok y) xs ys := by
  induction xs generalizing ys with
  | nil => simp [pure, Except.pure, eq_comm]
  | cons x xs ih =>
      rw [List.mapM_cons, List.forall₂_cons_left_iff]
      simp only [← ih]
      cases f x with
      | error e => simp [bind, Except.bind]
      | ok y =>
          cases xs.mapM f with
          | error e => simp [bind, Except.bind]
          | ok rest => simp [bind, Except.bind, pure, Except.pure, eq_comm]

theorem exists_last {P : α → Prop} (h : ∃ x ∈ xs, P x) :
    ∃ before y after, xs = before ++ y :: after ∧ P y ∧ ∀ z ∈ after, ¬ P z := by
  induction xs with
  | nil => simp at h
  | cons a xs ih =>
      by_cases hrest : ∃ x ∈ xs, P x
      · obtain ⟨before, y, after, rfl, hy, hafter⟩ := ih hrest
        exact ⟨a :: before, y, after, rfl, hy, hafter⟩
      · obtain ⟨x, hx, hPx⟩ := h
        obtain rfl : x = a := (List.mem_cons.mp hx).resolve_right fun hx => hrest ⟨x, hx, hPx⟩
        exact ⟨[], x, xs, rfl, hPx, fun z hz hPz => hrest ⟨z, hz, hPz⟩⟩

theorem map_eq_self_iff {g : α → α} : xs.map g = xs ↔ ∀ x ∈ xs, g x = x := by
  have hinj := List.map_inj_left (l := xs) (f := g) (g := id)
  rwa [List.map_id] at hinj

end SchemaSieve
