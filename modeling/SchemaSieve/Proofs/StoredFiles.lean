import Mathlib.Data.List.Basic
import SchemaSieve.Files.Basic

/-!
# Reading what was written

Files only ever grow: directories are made, contents are put at places, and nothing goes away.
Where a path leads it therefore leads for good.  A file written under a name in a directory is
read back from the path joined of both, until the same name is written again.
-/

namespace SchemaSieve

/-! ## Names -/

namespace Path

/-- The text names an entry of a directory, and is no step of a path. -/
structure IsName (name : String) : Prop where
  no_slash : slash ∉ name.toList
  not_idle : isIdle name = false
  not_up : name ≠ ".."

theorem not_mem_of_mem_splitOn {c : Char} {cs part : List Char} (h : part ∈ cs.splitOn c) :
    c ∉ part := by
  induction cs generalizing part with
  | nil =>
      rw [List.splitOn_nil, List.mem_singleton] at h
      simp [h]
  | cons d cs ih =>
      obtain ⟨first, rest, hsplit⟩ := List.exists_cons_of_ne_nil (List.splitOn_ne_nil c cs)
      rw [List.splitOn_cons_eq_if_modifyHead, hsplit] at h
      rw [hsplit] at ih
      split at h
      next =>
        rcases List.mem_cons.mp h with rfl | h
        · exact List.not_mem_nil
        · exact ih h
      next hd =>
        rw [List.modifyHead_cons] at h
        rcases List.mem_cons.mp h with rfl | h
        · have hfirst : c ∉ first := ih List.mem_cons_self
          rw [List.mem_cons, not_or]
          exact ⟨fun hc => hd (beq_iff_eq.mpr hc.symm), hfirst⟩
        · exact ih (List.mem_cons_of_mem _ h)

theorem slash_not_mem_of_mem_parts {path name : String} (h : name ∈ parts path) :
    slash ∉ name.toList := by
  obtain ⟨cs, hcs, rfl⟩ := List.mem_map.mp h
  rw [String.toList_ofList]
  exact not_mem_of_mem_splitOn hcs

theorem mem_of_mem_stemOfName {name : String} {c : Char} (h : c ∈ (stemOfName name).toList) :
    c ∈ name.toList := by
  rw [stemOfName] at h
  split at h
  · exact h
  · rw [String.toList_ofList, List.mem_reverse] at h
    have hdropped := (List.dropWhile_sublist _).subset (List.mem_of_mem_tail h)
    exact List.mem_reverse.mp hdropped

theorem slash_not_mem_stem (path : String) : slash ∉ (stem path).toList := by
  unfold stem
  cases hname : name? path with
  | none => simp
  | some name =>
      have hlast : name ∈ (parts path).filter (!isIdle ·) := by
        apply List.mem_of_getLast?
        exact (Option.filter_eq_some_iff.mp hname).1
      intro hslash
      exact slash_not_mem_of_mem_parts (List.mem_filter.mp hlast).1 (mem_of_mem_stemOfName hslash)

theorem parts_of_no_slash {name : String} (h : slash ∉ name.toList) : parts name = [name] := by
  rw [parts, List.splitOn_eq_singleton h, List.map_singleton, String.ofList_toList]

theorem parts_append_slash (path name : String) :
    parts (path ++ String.singleton slash ++ name) = parts path ++ parts name := by
  have hchars : (path ++ String.singleton slash ++ name).toList =
      path.toList ++ slash :: name.toList := by
    simp
  rw [parts, hchars, List.splitOn_append_cons_self, List.map_append]
  rfl

theorem parts_join {path name : String} (hpath : path ≠ "") (hname : slash ∉ name.toList) :
    ∃ names, parts (join path name) = names ++ [name] ∧
      (parts path = names ∨ parts path = names ++ [""]) := by
  unfold join
  split
  next h =>
    have hlast : path.toList.getLast? = some slash := by simpa [hpath] using h
    obtain ⟨cs, hcs⟩ := List.getLast?_eq_some_iff.mp hlast
    obtain rfl : path = String.ofList cs ++ String.singleton slash := by
      apply String.toList_injective
      simpa using hcs
    refine ⟨parts (String.ofList cs), ?_, .inr ?_⟩
    · rw [parts_append_slash, parts_of_no_slash hname]
    · have happend := parts_append_slash (String.ofList cs) ""
      rwa [String.append_empty, parts_of_no_slash (by decide : slash ∉ "".toList)] at happend
  next => exact ⟨parts path, by rw [parts_append_slash, parts_of_no_slash hname], .inl rfl⟩

theorem head_join {path : String} (hpath : path ≠ "") (name : String) :
    (join path name).toList.head? = path.toList.head? := by
  have hchars : path.toList ≠ [] := by simpa using hpath
  unfold join
  split <;> simp [List.head?_append, List.head?_eq_some_head hchars]

theorem join_ne_empty {path : String} (hpath : path ≠ "") (name : String) :
    join path name ≠ "" := by
  unfold join
  split <;> simp [hpath]

end Path

namespace Files

open SchemaSieve.Path

variable {fs fs' fs'' : Files} {p q : Place} {name directory path : String} {bytes : Bytes}

/-! ## Growth -/

/-- All that was there still is, though contents may be others. -/
structure Grows (fs fs' : Files) : Prop where
  here : fs'.here = fs.here
  directories : ∀ p, fs.isDirectory p = true → fs'.isDirectory p = true
  contents : ∀ p, (fs.content? p).isSome = true → (fs'.content? p).isSome = true

theorem Grows.isThere (h : Grows fs fs') (hp : fs.isThere p = true) : fs'.isThere p = true := by
  rw [Files.isThere, Bool.or_eq_true] at hp ⊢
  exact hp.imp (h.contents p) (h.directories p)

theorem step_eq_ok_iff :
    fs.step p name = .ok q ↔ fs.isDirectory p = true ∧
      (isIdle name = true ∧ p = q ∨ isIdle name = false ∧ name = ".." ∧ p.dropLast = q ∨
        isIdle name = false ∧ name ≠ ".." ∧ isLongName name = false ∧
          fs.isThere (p ++ [name]) = true ∧ p ++ [name] = q) := by
  unfold step
  cases fs.isDirectory p with
  | false => simp
  | true =>
      cases isIdle name with
      | true => simp
      | false =>
          by_cases hup : name = ".."
          · simp [hup]
          · cases isLongName name <;> cases fs.isThere (p ++ [name]) <;> simp [hup]

theorem locate_eq_ok_iff :
    fs.locate path = .ok p ↔ path ≠ "" ∧ isLong path = false ∧
      fs.follow (fs.start path) (parts path) = .ok p := by
  unfold locate
  split_ifs with hpath hlong
  · exact ⟨nofun, fun h => absurd hpath h.1⟩
  · exact ⟨nofun, fun h => absurd hlong (by simp [h.2.1])⟩
  · exact ⟨fun h => ⟨hpath, by simpa using hlong, h⟩, fun h => h.2.2⟩

namespace Grows

theorem refl (fs : Files) : Grows fs fs := ⟨rfl, fun _ => id, fun _ => id⟩

theorem trans (h : Grows fs fs') (h' : Grows fs' fs'') : Grows fs fs'' :=
  ⟨h'.here.trans h.here, fun p hp => h'.directories p (h.directories p hp),
    fun p hp => h'.contents p (h.contents p hp)⟩

theorem step (hgrows : Grows fs fs') (h : fs.step p name = .ok q) :
    fs'.step p name = .ok q := by
  rw [step_eq_ok_iff] at h ⊢
  obtain ⟨hdirectory, hidle | hup | ⟨hidle, hup, hlong, hthere, hq⟩⟩ := h
  · exact ⟨hgrows.directories p hdirectory, .inl hidle⟩
  · exact ⟨hgrows.directories p hdirectory, .inr (.inl hup)⟩
  · exact ⟨hgrows.directories p hdirectory,
      .inr (.inr ⟨hidle, hup, hlong, hgrows.isThere hthere, hq⟩)⟩

theorem follow {names : List String} (hgrows : Grows fs fs') (h : fs.follow p names = .ok q) :
    fs'.follow p names = .ok q := by
  induction names generalizing p with
  | nil => exact h
  | cons name names ih =>
      rw [Files.follow, List.foldlM_cons] at h ⊢
      cases hstep : fs.step p name with
      | error e =>
          rw [hstep] at h
          cases h
      | ok p' =>
          rw [hstep] at h
          rw [hgrows.step hstep]
          exact ih h

theorem locate (hgrows : Grows fs fs') (h : fs.locate path = .ok p) :
    fs'.locate path = .ok p := by
  obtain ⟨hpath, hlong, hfollow⟩ := locate_eq_ok_iff.mp h
  have hstart : fs'.start path = fs.start path := by rw [start, start, hgrows.here]
  exact locate_eq_ok_iff.mpr ⟨hpath, hlong, hstart ▸ hgrows.follow hfollow⟩

end Grows

/-! ## Paths with a name at the end -/

theorem follow_append (names : List String) :
    fs.follow p (names ++ [name]) = fs.follow p names >>= fun q => fs.step q name := by
  rw [follow, List.foldlM_append]
  simp [follow]

theorem locate_join (hname : slash ∉ name.toList) (hdirectory : fs.locate directory = .ok p)
    (hlong : isLong (join directory name) = false) :
    fs.locate (join directory name) = fs.step p name := by
  obtain ⟨hpath, -, hfollow⟩ := locate_eq_ok_iff.mp hdirectory
  obtain ⟨names, hjoin, hparts⟩ := parts_join hpath hname
  have hstart : fs.start (join directory name) = fs.start directory := by
    rw [start, start, head_join hpath]
  have hnames : fs.follow (fs.start directory) names = .ok p := by
    rcases hparts with hparts | hparts
    · rwa [hparts] at hfollow
    · rw [hparts, follow_append] at hfollow
      cases hnames : fs.follow (fs.start directory) names with
      | error e =>
          rw [hnames] at hfollow
          cases hfollow
      | ok p' =>
          rw [hnames] at hfollow
          obtain ⟨-, hidle | hup | hentry⟩ := step_eq_ok_iff.mp hfollow
          · rw [hidle.2]
          · cases hup.1
          · cases hentry.1
  rw [locate, if_neg (join_ne_empty hpath name), if_neg (by simp [hlong]), hjoin, hstart,
    follow_append, hnames]
  rfl

theorem step_of_isName (hname : IsName name) (hdirectory : fs.isDirectory p = true)
    (hlong : isLongName name = false) (hthere : fs.isThere (p ++ [name]) = true) :
    fs.step p name = .ok (p ++ [name]) :=
  step_eq_ok_iff.mpr
    ⟨hdirectory, .inr (.inr ⟨hname.not_idle, hname.not_up, hlong, hthere, rfl⟩)⟩

theorem eq_append_of_step (hname : IsName name) (h : fs.step p name = .ok q) :
    q = p ++ [name] := by
  obtain ⟨-, hidle | hup | hentry⟩ := step_eq_ok_iff.mp h
  · simp [hname.not_idle] at hidle
  · exact absurd hup.2.1 hname.not_up
  · exact hentry.2.2.2.2.symm

theorem reaches_of_step (hname : IsName name)
    (h : fs.step p name = .ok (p ++ [name]) ∨ fs.step p name = .error .notFound) :
    fs.isDirectory p = true ∧ isLongName name = false := by
  simp only [step, hname.not_idle, hname.not_up, Bool.false_eq_true, if_false] at h
  split_ifs at h <;> simp_all

/-! ## Reading and writing -/

theorem read_eq_ok_iff :
    fs.read path = .ok bytes ↔ ∃ p, fs.locate path = .ok p ∧ fs.content? p = some bytes := by
  unfold read
  cases fs.locate path with
  | error e => simp [bind, Except.bind]
  | ok p => cases hcontent : fs.content? p <;> simp [bind, Except.bind, hcontent]

theorem content?_put_self (fs : Files) (p : Place) (bytes : Bytes) :
    (fs.put p bytes).content? p = some bytes := by
  simp [content?, put]

theorem content?_put_of_ne (bytes : Bytes) (h : q ≠ p) :
    (fs.put p bytes).content? q = fs.content? q := by
  have hfilter : ∀ cs : List (Place × Bytes),
      (cs.filter (·.1 ≠ p)).lookup q = cs.lookup q := by
    intro cs
    induction cs with
    | nil => rfl
    | cons c cs ih =>
        rw [List.filter_cons]
        split
        · rw [List.lookup_cons, List.lookup_cons, ih]
        next hc =>
          have hqc : (q == c.1) = false := by simp_all
          rw [List.lookup_cons, hqc, ih]
  rw [content?, put, List.lookup_cons, beq_eq_false_iff_ne.mpr h]
  exact hfilter fs.contents

theorem grows_put (fs : Files) (p : Place) (bytes : Bytes) : Grows fs (fs.put p bytes) := by
  refine ⟨rfl, fun q hq => ?_, fun q hq => ?_⟩
  · unfold isDirectory at hq ⊢
    rw [Bool.or_eq_true] at hq ⊢
    refine hq.imp id fun habove => ?_
    obtain ⟨c, hc, habove⟩ := List.any_eq_true.mp habove
    by_cases hcp : c.1 = p
    · exact List.any_eq_true.mpr ⟨(p, bytes), List.mem_cons_self, hcp ▸ habove⟩
    · exact List.any_eq_true.mpr
        ⟨c, List.mem_cons_of_mem _ (List.mem_filter.mpr ⟨hc, by simpa using hcp⟩), habove⟩
  · by_cases hqp : q = p
    · rw [hqp, content?_put_self]
      rfl
    · rwa [content?_put_of_ne bytes hqp]

theorem put_of_write (hname : IsName name) (h : fs.write directory name bytes = .ok fs') :
    ∃ p, fs.locate directory = .ok p ∧ isLong (join directory name) = false ∧
      fs.isDirectory p = true ∧ isLongName name = false ∧ fs' = fs.put (p ++ [name]) bytes := by
  unfold write at h
  split at h
  · cases h
  next hlong =>
    cases hlocate : fs.locate directory with
    | error e => simp [hlocate, bind, Except.bind] at h
    | ok p =>
        simp only [hlocate, bind, Except.bind] at h
        refine ⟨p, rfl, by simpa using hlong, ?_⟩
        cases hstep : fs.step p name with
        | ok q =>
            obtain rfl := eq_append_of_step hname hstep
            obtain ⟨hdirectory, hlongName⟩ := reaches_of_step hname (.inl hstep)
            simp only [hstep] at h
            split_ifs at h
            cases h
            exact ⟨hdirectory, hlongName, rfl⟩
        | error e =>
            simp only [hstep] at h
            cases e with
            | notFound =>
                obtain ⟨hdirectory, hlongName⟩ := reaches_of_step hname (.inr hstep)
                cases h
                exact ⟨hdirectory, hlongName, rfl⟩
            | _ => cases h

theorem exists_put_of_write (hname : IsName name)
    (h : fs.write directory name bytes = .ok fs') :
    ∃ q, fs'.locate (join directory name) = .ok q ∧ fs' = fs.put q bytes := by
  obtain ⟨p, hlocate, hlong, hdirectory, hlongName, rfl⟩ := put_of_write hname h
  have hgrows := grows_put fs (p ++ [name]) bytes
  have hthere : (fs.put (p ++ [name]) bytes).isThere (p ++ [name]) = true := by
    rw [isThere, content?_put_self]
    rfl
  refine ⟨p ++ [name], ?_, rfl⟩
  rw [locate_join hname.no_slash (hgrows.locate hlocate) hlong]
  exact step_of_isName hname (hgrows.directories p hdirectory) hlongName hthere

theorem read_write (hname : IsName name) (h : fs.write directory name bytes = .ok fs') :
    fs'.read (join directory name) = .ok bytes := by
  obtain ⟨q, hlocate, rfl⟩ := exists_put_of_write hname h
  exact read_eq_ok_iff.mpr ⟨q, hlocate, content?_put_self fs q bytes⟩

theorem read_write_of_ne {other : String} {content : Bytes} (hname : IsName name)
    (hother : IsName other) (hne : name ≠ other)
    (h : fs.write directory other content = .ok fs')
    (hread : fs.read (join directory name) = .ok bytes) :
    fs'.read (join directory name) = .ok bytes := by
  obtain ⟨p, hlocate, -, -, -, rfl⟩ := put_of_write hother h
  obtain ⟨q, hq, hcontent⟩ := read_eq_ok_iff.mp hread
  refine read_eq_ok_iff.mpr ⟨q, (grows_put fs (p ++ [other]) content).locate hq, ?_⟩
  obtain ⟨-, hlong, -⟩ := locate_eq_ok_iff.mp hq
  rw [locate_join hname.no_slash hlocate hlong] at hq
  obtain rfl := eq_append_of_step hname hq
  rwa [content?_put_of_ne content (by simpa using hne)]

/-! ## Making directories -/

structure MoreDirectories (fs fs' : Files) : Prop where
  contents : fs'.contents = fs.contents
  here : fs'.here = fs.here
  directories : fs.directories ⊆ fs'.directories

namespace MoreDirectories

theorem refl (fs : Files) : MoreDirectories fs fs := ⟨rfl, rfl, List.Subset.refl _⟩

theorem trans (h : MoreDirectories fs fs') (h' : MoreDirectories fs' fs'') :
    MoreDirectories fs fs'' :=
  ⟨h'.contents.trans h.contents, h'.here.trans h.here,
    List.Subset.trans h.directories h'.directories⟩

theorem grows (h : MoreDirectories fs fs') : Grows fs fs' := by
  refine ⟨h.here, fun p hp => ?_, fun p hp => ?_⟩
  · rw [isDirectory, Bool.or_eq_true, Bool.or_eq_true] at hp ⊢
    rw [h.here, h.contents]
    refine hp.imp (Or.imp_right fun hany => ?_) id
    obtain ⟨d, hd, hp⟩ := List.any_eq_true.mp hany
    exact List.any_eq_true.mpr ⟨d, h.directories hd, hp⟩
  · rwa [content?, h.contents]

theorem read (h : MoreDirectories fs fs') (hread : fs.read path = .ok bytes) :
    fs'.read path = .ok bytes := by
  obtain ⟨p, hlocate, hcontent⟩ := read_eq_ok_iff.mp hread
  refine read_eq_ok_iff.mpr ⟨p, h.grows.locate hlocate, ?_⟩
  rwa [content?, h.contents]

end MoreDirectories

theorem moreDirectories_of_makeDirectory {names : List String}
    (h : fs.makeDirectory p names = .ok fs') : MoreDirectories fs fs' := by
  unfold makeDirectory at h
  split at h
  · cases h
  next name hlast =>
    cases hfollow : fs.follow p names.dropLast with
    | error e => simp [hfollow, bind, Except.bind] at h
    | ok above =>
        simp only [hfollow, bind, Except.bind] at h
        split at h
        · cases h
        · cases h
          exact ⟨rfl, rfl, List.subset_append_left _ _⟩
        · cases h

theorem moreDirectories_of_ensureDirectory {names : List String}
    (h : fs.ensureDirectory p names = .ok fs') : MoreDirectories fs fs' := by
  unfold ensureDirectory at h
  split at h
  next hmake =>
    cases h
    exact moreDirectories_of_makeDirectory hmake
  · split at h
    · cases h
      exact .refl _
    · cases h
  · cases h

theorem moreDirectories_of_ensureAll {names : List String} {aboves : List (List String)}
    (h : fs.ensureAll p names aboves = .ok fs') : MoreDirectories fs fs' := by
  induction aboves generalizing names fs' with
  | nil => exact moreDirectories_of_ensureDirectory h
  | cons above more ih =>
      unfold ensureAll at h
      split at h
      · cases hall : fs.ensureAll p above more with
        | error e => simp [hall, bind, Except.bind] at h
        | ok made =>
            simp only [hall, bind, Except.bind] at h
            exact (ih hall).trans (moreDirectories_of_ensureDirectory h)
      · exact moreDirectories_of_ensureDirectory h

theorem moreDirectories_of_makeDirectories (h : fs.makeDirectories path = .ok fs') :
    MoreDirectories fs fs' := by
  unfold makeDirectories at h
  split at h
  · cases h
  · exact moreDirectories_of_ensureAll h

end Files

end SchemaSieve
