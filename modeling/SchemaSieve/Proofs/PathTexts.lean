import Mathlib.Data.List.Induction
import SchemaSieve.Issue.Path

/-!
# Paths and their texts

Each step of a path adds a separator and a name to its text, so the text can be taken apart
again: between its separators stand the parts of the names, in the order of the steps.  A name
without a separator is one part, also when it is empty.  What is lost is only where in a name
with separators the steps were, and that the root has no name at all.
-/

namespace SchemaSieve.FieldPath

variable {names ns ms : List String}

/-! ## One step -/

theorem text_child (p : FieldPath) (name : String) :
    (p.child name).text = if p.isRoot then name else p.text ++ separator ++ name := by
  have hroot : p.isRoot = true ↔ p.segments = [] := List.isEmpty_iff
  rw [text, child]
  split
  next h => rw [hroot.mp h, List.nil_append, String.intercalate_singleton]
  next h =>
    rw [String.intercalate_append_of_ne_nil (mt hroot.mpr h) (List.cons_ne_nil _ _),
      String.intercalate_singleton, text]

/-! ## Parts of texts -/

def parts (s : String) : List (List Char) := s.toList.splitOn ':'

theorem parts_injective : Function.Injective parts := by
  intro s t h
  have hchars : [':'].intercalate (parts s) = [':'].intercalate (parts t) := by rw [h]
  simpa only [parts, List.intercalate_splitOn, String.toList_inj] using hchars

theorem parts_of_no_separator {name : String} (h : ':' ∉ name.toList) :
    parts name = [name.toList] :=
  List.splitOn_eq_singleton h

theorem parts_append_separator (s t : String) :
    parts (s ++ separator ++ t) = parts s ++ parts t := by
  have hchars : (s ++ separator ++ t).toList = s.toList ++ ':' :: t.toList := by
    simp [separator]
  rw [parts, hchars, List.splitOn_append_cons_self]
  rfl

/-! ## Any number of steps -/

def ofSteps (names : List String) : FieldPath := names.foldl child root

theorem ofSteps_concat (names : List String) (name : String) :
    ofSteps (names ++ [name]) = (ofSteps names).child name := by
  rw [ofSteps, List.foldl_append]
  rfl

theorem segments_ofSteps (names : List String) : (ofSteps names).segments = names := by
  induction names using List.reverseRecOn with
  | nil => rfl
  | append_singleton names name ih => rw [ofSteps_concat, child, ih]

theorem isRoot_ofSteps : (ofSteps names).isRoot = true ↔ names = [] := by
  rw [isRoot, segments_ofSteps, List.isEmpty_iff]

theorem parts_text_ofSteps (hne : names ≠ []) :
    parts (ofSteps names).text = names.flatMap parts := by
  induction names using List.reverseRecOn with
  | nil => exact absurd rfl hne
  | append_singleton names name ih =>
      rw [ofSteps_concat, text_child, List.flatMap_append, List.flatMap_singleton]
      split
      next hroot =>
        rw [isRoot_ofSteps.mp hroot]
        rfl
      next hbelow => rw [parts_append_separator, ih (mt isRoot_ofSteps.mpr hbelow)]

theorem flatMap_parts_of_no_separator (h : ∀ name ∈ names, ':' ∉ name.toList) :
    names.flatMap parts = names.map String.toList := by
  induction names with
  | nil => rfl
  | cons name names ih =>
      obtain ⟨hname, hnames⟩ := List.forall_mem_cons.mp h
      rw [List.flatMap_cons, parts_of_no_separator hname, ih hnames, List.map_cons]
      rfl

theorem text_eq_iff_parts (hns : ns ≠ []) (hms : ms ≠ []) :
    (ofSteps ns).text = (ofSteps ms).text ↔ ns.flatMap parts = ms.flatMap parts := by
  rw [← parts_text_ofSteps hns, ← parts_text_ofSteps hms, parts_injective.eq_iff]

/-- Without separators in their names, paths below the root are told apart by their texts, name
by name: the names are what stands between the separators of the text. -/
theorem text_ofSteps_eq_iff (hns : (ofSteps ns).isRoot = false)
    (hms : (ofSteps ms).isRoot = false) (hplain : ∀ name ∈ ns ++ ms, ':' ∉ name.toList) :
    ((ofSteps ns).text = (ofSteps ms).text ↔ (ofSteps ns).segments = (ofSteps ms).segments) ∧
      parts (ofSteps ns).text = (ofSteps ns).segments.map String.toList := by
  have hns' : ns ≠ [] := mt isRoot_ofSteps.mpr (Bool.eq_false_iff.mp hns)
  have hms' : ms ≠ [] := mt isRoot_ofSteps.mpr (Bool.eq_false_iff.mp hms)
  obtain ⟨hplain_ns, hplain_ms⟩ := List.forall_mem_append.mp hplain
  rw [text_eq_iff_parts hns' hms', parts_text_ofSteps hns', segments_ofSteps, segments_ofSteps,
    flatMap_parts_of_no_separator hplain_ns, flatMap_parts_of_no_separator hplain_ms]
  exact ⟨List.map_inj_right fun _ _ => String.toList_inj.mp, rfl⟩

theorem text_ofSteps_eq_iff_empty_names :
    let ns := ["", "a", ""]
    let ms := ["", "a"]
    (ofSteps ns).isRoot = false ∧ (ofSteps ms).isRoot = false ∧
      (∀ name ∈ ns ++ ms, ':' ∉ name.toList) ∧
      (ofSteps ns).text = ":a:" ∧ parts ":a:" = [[], ['a'], []] ∧
      (ofSteps ns).text ≠ (ofSteps ms).text := by
  intro ns ms
  have hns : (ofSteps ns).isRoot = false := rfl
  have hms : (ofSteps ms).isRoot = false := rfl
  have hplain : ∀ name ∈ ns ++ ms, ':' ∉ name.toList := by decide
  have hsteps := text_ofSteps_eq_iff hns hms hplain
  have htext : (ofSteps ns).text = ":a:" := by decide
  refine ⟨hns, hms, hplain, htext, ?_, fun h => ?_⟩
  · rw [← htext]
    exact hsteps.2
  · exact absurd (hsteps.1.mp h) (by decide)

end SchemaSieve.FieldPath
