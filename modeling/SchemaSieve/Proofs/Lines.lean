import SchemaSieve.Proofs.Layouts
import SchemaSieve.Proofs.NumberTexts
import SchemaSieve.Schema.Fragment
import SchemaSieve.Text.Terminal

/-!
# Lines of written texts

A text made of parts that each end in a line feed has the lines of its parts, and a part
has one line more than it has line feeds of its own.  Compact JSON texts and schema
fragments have none: a line feed in a string is written as an escape.
-/

namespace SchemaSieve

/-! ## Lines -/

namespace Text

def OneLine (s : String) : Prop := '\n' ∉ s.toList

instance (s : String) : Decidable (OneLine s) := inferInstanceAs (Decidable ('\n' ∉ s.toList))

def lineFeeds (s : String) : Nat := s.toList.count '\n'

theorem lineFeeds_eq_zero_iff {s : String} : lineFeeds s = 0 ↔ OneLine s := List.count_eq_zero

@[simp] theorem lineFeeds_append (s t : String) :
    lineFeeds (s ++ t) = lineFeeds s + lineFeeds t := by
  rw [lineFeeds, String.toList_append, List.count_append]
  rfl

theorem lineFeeds_append_oneLine {s t : String} (h : OneLine t) :
    lineFeeds (s ++ t) = lineFeeds s := by
  rw [lineFeeds_append, lineFeeds_eq_zero_iff.mpr h, Nat.add_zero]

theorem lineFeeds_oneLine_append {s t : String} (h : OneLine s) :
    lineFeeds (s ++ t) = lineFeeds t := by
  rw [lineFeeds_append, lineFeeds_eq_zero_iff.mpr h, Nat.zero_add]

@[simp] theorem oneLine_append {s t : String} : OneLine (s ++ t) ↔ OneLine s ∧ OneLine t := by
  simp [OneLine, not_or]

theorem oneLine_ofList {cs : List Char} : OneLine (String.ofList cs) ↔ '\n' ∉ cs := by
  rw [OneLine, String.toList_ofList]

def EndsPlainly (s : String) : Prop := ∃ c, s.toList.getLast? = some c ∧ c ≠ '\r'

theorem endsPlainly_ofList {cs : List Char} {c : Char} (h : cs.getLast? = some c)
    (hc : c ≠ '\r') : EndsPlainly (String.ofList cs) :=
  ⟨c, by rw [String.toList_ofList, h], hc⟩

theorem EndsPlainly.append {t : String} (h : EndsPlainly t) (s : String) :
    EndsPlainly (s ++ t) := by
  obtain ⟨c, hlast, hc⟩ := h
  exact ⟨c, by rw [String.toList_append, List.getLast?_append, hlast, Option.some_or], hc⟩

def endedLines (s : String) : List String :=
  (s.toList.splitOn '\n').map fun cs => String.ofList (withoutReturn cs)

theorem length_splitOn (c : Char) (cs : List Char) :
    (cs.splitOn c).length = cs.count c + 1 := by
  induction cs with
  | nil => rfl
  | cons d cs ih =>
      rw [List.splitOn_cons_eq_if_modifyHead, List.count_cons]
      split
      · rw [List.length_cons, ih]
      · rw [List.length_modifyHead, ih, Nat.add_zero]

theorem length_endedLines (s : String) : (endedLines s).length = lineFeeds s + 1 := by
  rw [endedLines, List.length_map, length_splitOn]
  rfl

theorem endedLines_of_oneLine {s : String} (hs : OneLine s) (hend : EndsPlainly s) :
    endedLines s = [s] := by
  obtain ⟨c, hlast, hc⟩ := hend
  have hkept : withoutReturn s.toList = s.toList := by simp [withoutReturn, hlast, hc]
  rw [endedLines, List.splitOn_eq_singleton hs, List.map_singleton, hkept, String.ofList_toList]

theorem lines_append_lineFeed (s t : String) :
    lines (s ++ "\n" ++ t) = endedLines s ++ lines t := by
  have hsplit : (s ++ "\n" ++ t).toList.splitOn '\n' =
      s.toList.splitOn '\n' ++ t.toList.splitOn '\n' := by
    rw [String.toList_append, String.toList_append, List.append_assoc]
    exact List.splitOn_append_cons_self _ _
  have hne := List.splitOn_ne_nil '\n' t.toList
  have hlast : (s.toList.splitOn '\n' ++ t.toList.splitOn '\n').getLast? =
      some ((t.toList.splitOn '\n').getLast hne) := by
    rw [List.getLast?_append, List.getLast?_eq_some_getLast hne, Option.some_or]
  simp only [lines, endedLines, hsplit, List.dropLast_append_of_ne_nil hne, List.map_append,
    hlast, List.getLast?_eq_some_getLast hne]
  split
  · rfl
  · rfl
  · rw [List.append_assoc]

theorem lines_join (parts : List String) :
    lines (String.join (parts.map (· ++ "\n"))) = parts.flatMap endedLines := by
  induction parts with
  | nil => rfl
  | cons s parts ih =>
      rw [List.map_cons, String.join_cons, lines_append_lineFeed, ih, List.flatMap_cons]

theorem length_lines_join (parts : List String) :
    (lines (String.join (parts.map (· ++ "\n")))).length =
      parts.length + (parts.map lineFeeds).sum := by
  rw [lines_join]
  induction parts with
  | nil => rfl
  | cons s parts ih =>
      rw [List.flatMap_cons, List.length_append, length_endedLines, ih, List.length_cons,
        List.map_cons, List.sum_cons]
      omega

theorem lines_join_of_oneLine {parts : List String} (hparts : ∀ s ∈ parts, OneLine s)
    (hend : ∀ s ∈ parts, EndsPlainly s) :
    lines (String.join (parts.map (· ++ "\n"))) = parts := by
  rw [lines_join]
  induction parts with
  | nil => rfl
  | cons s parts ih =>
      obtain ⟨hs, hparts⟩ := List.forall_mem_cons.mp hparts
      obtain ⟨hsend, hend⟩ := List.forall_mem_cons.mp hend
      rw [List.flatMap_cons, endedLines_of_oneLine hs hsend, ih hparts hend,
        List.singleton_append]

end Text

/-! ## Texts of numbers -/

namespace Decimal

theorem lineFeed_not_mem_of_numeral {cs : List Char} (h : ∀ c ∈ cs, isNumeralChar c = true) :
    '\n' ∉ cs := by
  intro hmem
  cases h _ hmem

theorem oneLine_natText (n : Nat) : Text.OneLine (natText n) :=
  Text.oneLine_ofList.mpr (lineFeed_not_mem_of_numeral (isNumeralChar_of_mem_digits (digits_lt n)))

end Decimal

theorem Number.lineFeed_not_mem_chars (n : Number) : '\n' ∉ n.chars :=
  Decimal.lineFeed_not_mem_of_numeral n.isNumeralChar_chars

/-! ## Texts of trees -/

theorem ofNat_ne_lineFeed {n : Nat} (h : n ≠ 10) : Char.ofNat n ≠ '\n' := by
  intro hc
  by_cases hvalid : n.isValidChar
  · rw [Char.ofNat, dif_pos hvalid] at hc
    exact h (congrArg Char.toNat hc)
  · rw [Char.ofNat, dif_neg hvalid] at hc
    exact absurd hc (by decide)

namespace Json

theorem Quoted.lineFeed_not_mem_escape (c : Char) : '\n' ∉ escape c := by
  have hhex : ∀ n, hexDigit n ≠ '\n' := by
    intro n
    unfold hexDigit
    split <;> exact ofNat_ne_lineFeed (by omega)
  unfold escape
  split
  case h_8 =>
    split
    · simp [(hhex _).symm]
    · simpa [eq_comm]
  all_goals decide

theorem Quoted.lineFeed_not_mem_chars (s : String) : '\n' ∉ Quoted.chars s := by
  simp only [Quoted.chars, List.mem_append, List.mem_cons, List.mem_flatMap, not_or, not_exists,
    not_and]
  exact ⟨⟨by decide, fun c _ => lineFeed_not_mem_escape c⟩, by decide⟩

theorem sizeOf_value_lt {ms : List (String × Json)} {m : String × Json} (h : m ∈ ms) :
    sizeOf m.2 < sizeOf (Json.object ms) := by
  have hlt := List.sizeOf_lt_of_mem h
  obtain ⟨name, v⟩ := m
  simp only [Prod.mk.sizeOf_spec] at hlt
  simp only [Json.object.sizeOf_spec]
  omega

/-- What holds of a tree whenever it holds of its items and members holds of every tree. -/
@[elab_as_elim]
theorem parts_induction {motive : Json → Prop} (null : motive .null)
    (bool : ∀ b, motive (.bool b)) (number : ∀ n, motive (.number n))
    (string : ∀ s, motive (.string s))
    (array : ∀ xs, (∀ x ∈ xs, motive x) → motive (.array xs))
    (object : ∀ ms, (∀ m ∈ ms, motive m.2) → motive (.object ms)) (j : Json) : motive j := by
  cases j with
  | null => exact null
  | bool b => exact bool b
  | number n => exact number n
  | string s => exact string s
  | array xs =>
      exact array xs fun x hx => parts_induction null bool number string array object x
  | object ms =>
      exact object ms fun m hm => parts_induction null bool number string array object m.2
termination_by sizeOf j
decreasing_by
  · have hlt := List.sizeOf_lt_of_mem hx
    simp only [Json.array.sizeOf_spec]
    omega
  · exact sizeOf_value_lt hm

theorem lineFeed_not_mem_boolChars (b : Bool) : '\n' ∉ boolChars b := by
  cases b <;> decide

theorem lineFeed_not_mem_compactChars (j : Json) : '\n' ∉ j.compactChars := by
  induction j using parts_induction with
  | null => decide
  | bool b => exact lineFeed_not_mem_boolChars b
  | number n => exact n.lineFeed_not_mem_chars
  | string s => exact Quoted.lineFeed_not_mem_chars s
  | array xs ih =>
      cases xs with
      | nil => decide
      | cons x xs =>
          obtain ⟨hx, hxs⟩ := List.forall_mem_cons.mp ih
          simpa [compactChars, compactRest_eq_restChars, restChars, hx] using hxs
  | object ms ih =>
      cases ms with
      | nil => decide
      | cons m ms =>
          obtain ⟨hm, hms⟩ := List.forall_mem_cons.mp ih
          simpa [compactChars, compactRestMembers_eq_restChars, restChars, memberChars, hm,
            Quoted.lineFeed_not_mem_chars] using hms

end Json

/-! ## Names of types and fragments -/

theorem oneLine_of_mem_tagNames : ∀ t ∈ tagNames.map Prod.snd, Text.OneLine t := by
  decide

theorem mem_tagNames {code : Int} {name : String} (h : tagName? code = some name) :
    (code, name) ∈ tagNames := by
  rw [tagName?, List.lookup_eq_some_iff] at h
  obtain ⟨before, after, heq, -⟩ := h
  rw [heq]
  simp

theorem mem_tagNames_of_tagName? {code : Int} {name : String} (h : tagName? code = some name) :
    name ∈ tagNames.map Prod.snd :=
  List.mem_map_of_mem (mem_tagNames h)

namespace Fragment

open Json

theorem charsRest_eq_restChars (xs : List Json) : charsRest xs = restChars [] chars xs := by
  induction xs with
  | nil => rfl
  | cons x xs ih =>
      rw [charsRest, ih, restChars_cons]
      rfl

theorem charsRestMembers_eq_flatMap (ms : List (String × Json)) :
    charsRestMembers ms =
      ms.flatMap fun m => ',' :: Quoted.chars m.1 ++ '=' :: '>' :: chars m.2 := by
  induction ms with
  | nil => rfl
  | cons m ms ih => rw [charsRestMembers, ih, List.flatMap_cons]

theorem lineFeed_not_mem_numberChars (n : Number) : '\n' ∉ numberChars n := by
  unfold numberChars
  split
  · rename_i name hname
    obtain ⟨code, -, hcode⟩ := Option.bind_eq_some_iff.mp hname
    exact oneLine_of_mem_tagNames name (mem_tagNames_of_tagName? hcode)
  · exact n.lineFeed_not_mem_chars

theorem lineFeed_not_mem_chars (raw : Json) : '\n' ∉ chars raw := by
  induction raw using parts_induction with
  | null => decide
  | bool b => exact lineFeed_not_mem_boolChars b
  | number n => exact lineFeed_not_mem_numberChars n
  | string s => exact Quoted.lineFeed_not_mem_chars s
  | array xs ih =>
      cases xs with
      | nil => decide
      | cons x xs =>
          obtain ⟨hx, hxs⟩ := List.forall_mem_cons.mp ih
          simpa [chars, charsRest_eq_restChars, restChars, hx] using hxs
  | object ms ih =>
      cases ms with
      | nil => decide
      | cons m ms =>
          obtain ⟨hm, hms⟩ := List.forall_mem_cons.mp ih
          simpa [chars, charsRestMembers_eq_flatMap, hm, Quoted.lineFeed_not_mem_chars] using hms

theorem oneLine_render (raw : Json) : Text.OneLine (render raw) :=
  Text.oneLine_ofList.mpr (lineFeed_not_mem_chars raw)

end Fragment

theorem Value.oneLine_text (v : Value) : Text.OneLine v.text :=
  Text.oneLine_ofList.mpr (Json.lineFeed_not_mem_compactChars _)

end SchemaSieve
