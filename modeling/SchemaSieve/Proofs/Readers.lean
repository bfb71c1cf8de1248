import Mathlib.Logic.Basic
import SchemaSieve.Json.Document

/-!
# What readers read

`Reads x s a rest` says that the reader `x` takes `a` off the front of `s` and leaves
`rest`.  It holds of a composed reader exactly if it holds of its parts in turn, so a
reader is opened by rewriting, both to follow a given input and to see what an input
must have been.
-/

namespace SchemaSieve.Json.Reader

variable {α β σ : Type} {a b : α} {s rest : Bytes}

def Reads (x : Reader α) (s : Bytes) (a : α) (rest : Bytes) : Prop :=
  ∃ h : rest.length ≤ s.length, x s = .ok ⟨a, rest, h⟩

theorem reads_of_eq_ok {x : Reader α} {r : Read α s} (h : x s = .ok r) :
    Reads x s r.value r.rest :=
  ⟨r.le, h⟩

/-! ## Composition -/

theorem bind_apply (x : Reader β) (f : β → Reader α) (s : Bytes) :
    (x >>= f) s =
      match x s with
      | .error e => .error e
      | .ok r =>
          match f r.value r.rest with
          | .error e => .error e
          | .ok q => .ok ⟨q.value, q.rest, Nat.le_trans q.le r.le⟩ := by
  simp only [bind]
  cases x s with
  | error e => rfl
  | ok r =>
      simp only
      cases f r.value r.rest <;> rfl

@[simp] theorem reads_pure : Reads (pure b) s a rest ↔ a = b ∧ rest = s := by
  constructor
  · rintro ⟨h, hok⟩
    cases hok
    exact ⟨rfl, rfl⟩
  · rintro ⟨rfl, rfl⟩
    exact ⟨Nat.le_refl _, rfl⟩

theorem reads_bind {x : Reader β} {f : β → Reader α} :
    Reads (x >>= f) s a rest ↔ ∃ b t, Reads x s b t ∧ Reads (f b) t a rest := by
  constructor
  · rintro ⟨h, hok⟩
    rw [bind_apply] at hok
    split at hok
    · cases hok
    · rename_i r hr
      split at hok
      · cases hok
      · rename_i q hq
        cases hok
        exact ⟨r.value, r.rest, ⟨r.le, hr⟩, q.le, hq⟩
  · rintro ⟨b, t, ⟨hx, hxs⟩, hf, hft⟩
    refine ⟨Nat.le_trans hf hx, ?_⟩
    rw [bind_apply]
    simp only [hxs, hft]

@[simp] theorem reads_within {segment : Segment} {x : Reader α} :
    Reads (within segment x) s a rest ↔ Reads x s a rest := by
  simp only [Reads, within]
  cases x s <;> simp

theorem reads_bind_of_forall {x : Reader β} {f : β → Reader α} {b₀ : β} {t₀ : Bytes}
    (h : ∀ b t, Reads x s b t ↔ b = b₀ ∧ t = t₀) :
    Reads (x >>= f) s a rest ↔ Reads (f b₀) t₀ a rest := by
  rw [reads_bind]
  constructor
  · rintro ⟨b, t, hx, hf⟩
    obtain ⟨rfl, rfl⟩ := (h b t).mp hx
    exact hf
  · exact fun hf => ⟨b₀, t₀, (h b₀ t₀).mpr ⟨rfl, rfl⟩, hf⟩

theorem reads_of_total {x : Reader α} {a₀ : α} {t₀ : Bytes} {h : t₀.length ≤ s.length}
    (hx : x s = .ok ⟨a₀, t₀, h⟩) : Reads x s a rest ↔ a = a₀ ∧ rest = t₀ := by
  rw [Reads, hx]
  constructor
  · rintro ⟨_, hok⟩
    cases hok
    exact ⟨rfl, rfl⟩
  · rintro ⟨rfl, rfl⟩
    exact ⟨h, rfl⟩

/-! ## Single bytes -/

@[simp] theorem not_reads_fail {reason : Reason} :
    ¬ Reads (fail reason : Reader α) s a rest := by
  rintro ⟨_, ⟨⟩⟩

@[simp] theorem not_reads_failPast {reason : Reason} :
    ¬ Reads (failPast reason : Reader α) s a rest := by
  rintro ⟨_, ⟨⟩⟩

@[simp] theorem reads_look_bind {f : Option UInt8 → Reader α} :
    Reads (look >>= f) s a rest ↔ Reads (f s.head?) s a rest :=
  reads_bind_of_forall fun _ _ => reads_of_total rfl

@[simp] theorem reads_skip {u : Unit} : Reads skip s u rest ↔ rest = s.tail := by
  rw [reads_of_total (x := skip) rfl]
  simp

@[simp] theorem reads_skip_bind {f : Unit → Reader α} :
    Reads (skip >>= f) s a rest ↔ Reads (f ()) s.tail a rest :=
  reads_bind_of_forall fun _ _ => reads_of_total rfl

@[simp] theorem reads_next_bind {f : Option UInt8 → Reader α} :
    Reads (next >>= f) s a rest ↔ Reads (f s.head?) s.tail a rest :=
  reads_bind_of_forall fun _ _ => reads_of_total rfl

@[simp] theorem reads_lookPastSpace_bind {f : Option UInt8 → Reader α} :
    Reads (lookPastSpace >>= f) s a rest ↔
      Reads (f (skipSpace s).head?) (skipSpace s) a rest :=
  reads_bind_of_forall fun _ _ => reads_of_total rfl

@[simp] theorem reads_dropDigits_bind {f : Nat → Reader α} :
    Reads (dropDigits >>= f) s a rest ↔
      Reads (f (s.takeWhile isDigitByte).length) (s.dropWhile isDigitByte) a rest :=
  reads_bind_of_forall fun _ _ => reads_of_total rfl

@[simp] theorem reads_word {bs : Bytes} {u : Unit} :
    Reads (word bs) s u rest ↔ s = bs ++ rest := by
  induction bs generalizing s with
  | nil => simp [word, eq_comm]
  | cons b bs ih =>
      cases s with
      | nil => simp [word]
      | cons c s =>
          by_cases hc : c = b
          · simp [word, hc, ih]
          · simp [word, hc]

@[simp] theorem reads_colon {u : Unit} :
    Reads colon s u rest ↔ skipSpace s = byte ':' :: rest := by
  rw [colon, reads_lookPastSpace_bind]
  cases skipSpace s with
  | nil => simp
  | cons b t =>
      by_cases hb : b = byte ':'
      · simp [hb, eq_comm]
      · simp [hb]

/-! ## Lists -/

variable {item : Reader α} {member : σ → String → Reader σ}

theorem reads_itemsFrom_last {i : Nat} {x : α} {t : Bytes} (hitem : Reads item s x t)
    (hclose : skipSpace t = byte ']' :: rest) : Reads (itemsFrom item i) s [x] rest := by
  have hwithin : Reads (within (.index i) item) s x t := reads_within.mpr hitem
  obtain ⟨hle, hread⟩ := hwithin
  have hlt := length_lt_of_skipSpace hclose
  refine ⟨by omega, ?_⟩
  rw [itemsFrom]
  split
  · simp_all
  · rename_i r hr
    cases hread.symm.trans hr
    split
    · simp_all
    · rename_i b t' hb
      cases hclose.symm.trans hb
      exact if_pos rfl

theorem reads_itemsFrom_next {i : Nat} {x : α} {xs : List α} {t t' more : Bytes} {c : UInt8}
    (hitem : Reads item s x t) (hcomma : skipSpace t = byte ',' :: t')
    (hmore : skipSpace t' = c :: more) (hc : c ≠ byte ']')
    (hrest : Reads (itemsFrom item (i + 1)) (c :: more) xs rest) :
    Reads (itemsFrom item i) s (x :: xs) rest := by
  have hwithin : Reads (within (.index i) item) s x t := reads_within.mpr hitem
  obtain ⟨hle, hread⟩ := hwithin
  obtain ⟨hle', hread'⟩ := hrest
  have hlt := length_lt_of_skipSpace hcomma
  have hskip := skipSpace_length_le t'
  rw [hmore] at hskip
  refine ⟨by omega, ?_⟩
  rw [itemsFrom]
  split
  · simp_all
  · rename_i r hr
    cases hread.symm.trans hr
    split
    · simp_all
    · rename_i b t'' hb
      cases hcomma.symm.trans hb
      simp only [if_neg (show byte ',' ≠ byte ']' by decide), if_true]
      split
      · simp_all
      · rename_i c' more' _ hcons _
        cases hmore.symm.trans hcons
        simp only [if_neg hc]
        split
        · simp_all
        · rename_i q hq
          cases hread'.symm.trans hq
          rfl

theorem cases_of_reads_itemsFrom {i : Nat} {xs : List α} (h : Reads (itemsFrom item i) s xs rest) :
    ∃ x t, Reads item s x t ∧
      (skipSpace t = byte ']' :: rest ∧ xs = [x] ∨
        ∃ t' c more xs', skipSpace t = byte ',' :: t' ∧ skipSpace t' = c :: more ∧
          c ≠ byte ']' ∧ Reads (itemsFrom item (i + 1)) (c :: more) xs' rest ∧ xs = x :: xs') := by
  obtain ⟨hle, hok⟩ := h
  rw [itemsFrom] at hok
  split at hok
  · cases hok
  rename_i r hr
  refine ⟨r.value, r.rest, reads_within.mp (reads_of_eq_ok hr), ?_⟩
  split at hok
  · cases hok
  rename_i b t ht
  split at hok
  · rename_i hb
    cases hok
    exact .inl ⟨hb ▸ ht, rfl⟩
  split at hok
  · rename_i hb
    split at hok
    · cases hok
    rename_i c more _ hmore _
    split at hok
    · cases hok
    rename_i hc
    split at hok
    · cases hok
    rename_i q hq
    cases hok
    exact .inr ⟨t, c, more, q.value, hb ▸ ht, hmore, hc, reads_of_eq_ok hq, rfl⟩
  · cases hok

theorem reads_itemsFrom {i : Nat} {xs : List α} :
    Reads (itemsFrom item i) s xs rest ↔
      ∃ x t, Reads item s x t ∧
        (skipSpace t = byte ']' :: rest ∧ xs = [x] ∨
          ∃ t' c more xs', skipSpace t = byte ',' :: t' ∧ skipSpace t' = c :: more ∧
            c ≠ byte ']' ∧ Reads (itemsFrom item (i + 1)) (c :: more) xs' rest ∧
            xs = x :: xs') := by
  refine ⟨cases_of_reads_itemsFrom, ?_⟩
  rintro ⟨x, t, hitem, ⟨hclose, rfl⟩ | ⟨t', c, more, xs', hcomma, hmore, hc, hrest, rfl⟩⟩
  · exact reads_itemsFrom_last hitem hclose
  · exact reads_itemsFrom_next hitem hcomma hmore hc hrest

theorem reads_items {xs : List α} :
    Reads (items item) s xs rest ↔
      skipSpace s = byte ']' :: rest ∧ xs = [] ∨
        ∃ b, (skipSpace s).head? = some b ∧ b ≠ byte ']' ∧
          Reads (itemsFrom item 0) (skipSpace s) xs rest := by
  rw [items, reads_lookPastSpace_bind]
  cases skipSpace s with
  | nil => simp
  | cons b t =>
      by_cases hb : b = byte ']'
      · simp [hb, eq_comm, and_comm]
      · simp [hb]

theorem forall_of_reads_itemsFrom {P : α → Prop} {i : Nat} {xs : List α}
    (hitem : ∀ s x t, Reads item s x t → P x) (h : Reads (itemsFrom item i) s xs rest) :
    ∀ x ∈ xs, P x := by
  induction xs generalizing s i with
  | nil => simp
  | cons x xs ih =>
      obtain ⟨y, t, hy, ht⟩ := reads_itemsFrom.mp h
      rcases ht with ⟨-, hxs⟩ | ⟨t', c, more, xs', -, -, -, hrest, hxs⟩
      · cases hxs
        simpa using hitem s x t hy
      · cases hxs
        exact List.forall_mem_cons.mpr ⟨hitem s x t hy, ih hrest⟩

/-! ## Objects -/

theorem reads_membersFrom_last {acc acc' : σ} {name : String} {t u : Bytes}
    (hname : Reads string s name t) (hmember : Reads (member acc name) t acc' u)
    (hclose : skipSpace u = byte '}' :: rest) : Reads (membersFrom member acc) s acc' rest := by
  have hwithin : Reads (within .unknown string) s name t := reads_within.mpr hname
  obtain ⟨hle, hread⟩ := hwithin
  obtain ⟨hle', hread'⟩ := hmember
  have hlt := length_lt_of_skipSpace hclose
  refine ⟨by omega, ?_⟩
  rw [membersFrom]
  split
  · simp_all
  rename_i q hq
  cases hread.symm.trans hq
  split
  · simp_all
  rename_i r hr
  cases hread'.symm.trans hr
  split
  · simp_all
  rename_i b u' hb
  cases hclose.symm.trans hb
  exact if_pos rfl

theorem reads_membersFrom_next {acc acc' m : σ} {name : String} {t u u' more : Bytes}
    (hname : Reads string s name t) (hmember : Reads (member acc name) t acc' u)
    (hcomma : skipSpace u = byte ',' :: u') (hquote : skipSpace u' = byte '"' :: more)
    (hrest : Reads (membersFrom member acc') more m rest) :
    Reads (membersFrom member acc) s m rest := by
  have hwithin : Reads (within .unknown string) s name t := reads_within.mpr hname
  obtain ⟨hle, hread⟩ := hwithin
  obtain ⟨hle', hread'⟩ := hmember
  obtain ⟨hle'', hread''⟩ := hrest
  have hlt := length_lt_of_skipSpace hcomma
  have hlt' := length_lt_of_skipSpace hquote
  refine ⟨by omega, ?_⟩
  rw [membersFrom]
  split
  · simp_all
  rename_i q hq
  cases hread.symm.trans hq
  split
  · simp_all
  rename_i r hr
  cases hread'.symm.trans hr
  split
  · simp_all
  rename_i b u'' hb
  cases hcomma.symm.trans hb
  simp only [if_neg (show byte ',' ≠ byte '}' by decide), if_true]
  split
  · simp_all
  rename_i c more' _ hcons _
  cases hquote.symm.trans hcons
  simp only [if_true]
  split
  · simp_all
  rename_i q' hq'
  cases hread''.symm.trans hq'
  rfl

theorem cases_of_reads_membersFrom {acc m : σ} (h : Reads (membersFrom member acc) s m rest) :
    ∃ name t acc' u, Reads string s name t ∧ Reads (member acc name) t acc' u ∧
      (skipSpace u = byte '}' :: rest ∧ m = acc' ∨
        ∃ u' more, skipSpace u = byte ',' :: u' ∧ skipSpace u' = byte '"' :: more ∧
          Reads (membersFrom member acc') more m rest) := by
  obtain ⟨hle, hok⟩ := h
  rw [membersFrom] at hok
  split at hok
  · cases hok
  rename_i name hname
  split at hok
  · cases hok
  rename_i r hr
  refine ⟨name.value, name.rest, r.value, r.rest, reads_within.mp (reads_of_eq_ok hname),
    reads_of_eq_ok hr, ?_⟩
  split at hok
  · cases hok
  rename_i b u hu
  split at hok
  · rename_i hb
    cases hok
    exact .inl ⟨hb ▸ hu, rfl⟩
  split at hok
  · rename_i hb
    split at hok
    · cases hok
    rename_i c more _ hmore _
    split at hok
    · rename_i hquote
      split at hok
      · cases hok
      rename_i q hq
      cases hok
      exact .inr ⟨u, more, hb ▸ hu, hquote ▸ hmore, reads_of_eq_ok hq⟩
    · split at hok <;> cases hok
  · cases hok

theorem reads_membersFrom {acc m : σ} :
    Reads (membersFrom member acc) s m rest ↔
      ∃ name t acc' u, Reads string s name t ∧ Reads (member acc name) t acc' u ∧
        (skipSpace u = byte '}' :: rest ∧ m = acc' ∨
          ∃ u' more, skipSpace u = byte ',' :: u' ∧ skipSpace u' = byte '"' :: more ∧
            Reads (membersFrom member acc') more m rest) := by
  refine ⟨cases_of_reads_membersFrom, ?_⟩
  rintro ⟨name, t, acc', u, hname, hmember, ⟨hclose, rfl⟩ | ⟨u', more, hcomma, hquote, hrest⟩⟩
  · exact reads_membersFrom_last hname hmember hclose
  · exact reads_membersFrom_next hname hmember hcomma hquote hrest

theorem length_le_of_reads {x : Reader α} (h : Reads x s a rest) : rest.length ≤ s.length :=
  h.1

theorem invariant_of_reads_membersFrom {I : σ → Prop}
    (hmember : ∀ acc name s acc' t, I acc → Reads (member acc name) s acc' t → I acc')
    {acc m : σ} (hacc : I acc) (h : Reads (membersFrom member acc) s m rest) : I m := by
  -- by the length of what is left, as the loop itself runs
  induction hlen : s.length using Nat.strongRecOn generalizing s acc with
  | ind n ih =>
      obtain ⟨name, t, acc', u, hname, hread, hu⟩ := reads_membersFrom.mp h
      have hacc' := hmember acc name t acc' u hacc hread
      rcases hu with ⟨-, rfl⟩ | ⟨u', more, hcomma, hmore, hrest⟩
      · exact hacc'
      · have hshort := length_lt_of_skipSpace hcomma
        have hshort' := length_lt_of_skipSpace hmore
        have hle := length_le_of_reads hname
        have hle' := length_le_of_reads hread
        exact ih more.length (by omega) hacc' hrest rfl

theorem reads_members {start m : σ} :
    Reads (members member start) s m rest ↔
      skipSpace s = byte '}' :: rest ∧ m = start ∨
        ∃ t, skipSpace s = byte '"' :: t ∧ Reads (membersFrom member start) t m rest := by
  have hne : byte '"' ≠ byte '}' := by decide
  rw [members, reads_lookPastSpace_bind]
  cases skipSpace s with
  | nil => simp
  | cons b t =>
      by_cases hb : b = byte '}'
      · subst hb
        simp only [List.head?_cons, if_true, reads_skip_bind, reads_pure, List.tail_cons,
          List.cons.injEq, true_and, hne.symm, false_and, exists_false, or_false]
        exact ⟨fun h => ⟨h.2.symm, h.1⟩, fun h => ⟨h.2, h.1.symm⟩⟩
      · by_cases hquote : b = byte '"'
        · subst hquote
          have hskip : Reads (do skip; membersFrom member start) (byte '"' :: t) m rest ↔
              Reads (membersFrom member start) t m rest :=
            reads_skip_bind
          simp only [List.head?_cons, hne, if_false, if_true, List.cons.injEq, false_and,
            true_and, false_or, exists_eq_left']
          exact hskip
        · simp [hb, hquote]

/-! ## Trees -/

def IsScalar : Json → Prop
  | .array _ | .object _ => False
  | _ => True

theorem isScalar_of_reads {x : Reader α} {f : α → Json} {j : Json}
    (h : Reads (x >>= fun a => pure (f a)) s j rest) (hf : ∀ a, IsScalar (f a)) :
    IsScalar j := by
  rw [reads_bind] at h
  simp only [reads_pure] at h
  obtain ⟨a, _, -, rfl, -⟩ := h
  exact hf a

theorem cases_of_reads_treeWith {list object : Reader Json} {j : Json}
    (h : Reads (treeWith list object) s j rest) :
    IsScalar j ∨ Reads list (skipSpace s) j rest ∨ Reads object (skipSpace s) j rest := by
  rw [treeWith, reads_lookPastSpace_bind] at h
  cases hs : skipSpace s with
  | nil => simp [hs] at h
  | cons b t =>
      simp only [hs, List.head?_cons] at h
      split at h
      · exact .inl (isScalar_of_reads (reads_skip_bind.mp h) fun _ => trivial)
      split at h
      · exact .inl (isScalar_of_reads (reads_skip_bind.mp h) fun _ => trivial)
      split at h
      · exact .inl (isScalar_of_reads (reads_skip_bind.mp h) fun _ => trivial)
      split at h
      · exact .inl (isScalar_of_reads h fun _ => trivial)
      split at h
      · exact .inl (isScalar_of_reads (reads_skip_bind.mp h) fun _ => trivial)
      split at h
      · exact .inr (.inl h)
      split at h
      · exact .inr (.inr h)
      · simp at h

end SchemaSieve.Json.Reader
