import SchemaSieve.Proofs.Lines
import SchemaSieve.Proofs.NumberTexts
import SchemaSieve.Proofs.SchemaTexts

/-!
# Fragments are told apart by their texts

A fragment is shown as a word, a quoted string or a list in brackets, and its first character
says which.  A word ends before the first comma or bracket, a quoted string at its closing quote,
and a list where the brackets are balanced; so where one fragment ends is seen from the text
alone.  An entry with a name has an arrow behind a quoted string, where an item has a comma or a
bracket.  Only a list without entries does not tell an array from an object.
-/

namespace SchemaSieve

namespace Fragment

open Decimal Json

/-- The same tree, but that an empty array may stand for an empty object and the other way
round. -/
inductive Alike : Json → Json → Prop
  | scalar {j : Json} (leaf : Reader.IsScalar j) : Alike j j
  | array {xs ys : List Json} (items : List.Forall₂ Alike xs ys) : Alike (.array xs) (.array ys)
  | object {ms ns : List (String × Json)} (names : ms.map Prod.fst = ns.map Prod.fst)
      (values : List.Forall₂ Alike (ms.map Prod.snd) (ns.map Prod.snd)) :
      Alike (.object ms) (.object ns)
  | emptyObject : Alike (.array []) (.object [])
  | emptyArray : Alike (.object []) (.array [])

inductive Form where
  | word
  | quoted
  | list

def formOf : Json → Form
  | .string _ => .quoted
  | .array _ | .object _ => .list
  | _ => .word

/-! ## Words -/

def isPlain (c : Char) : Bool := c ∉ ['[', ']', ',', '"']

def IsWord (w : List Char) : Prop := w ≠ [] ∧ w.all isPlain = true

instance (w : List Char) : Decidable (IsWord w) := inferInstanceAs (Decidable (_ ∧ _))

theorem isPlain_of_isNumeralChar {c : Char} (h : isNumeralChar c = true) : isPlain c = true := by
  refine decide_eq_true fun hc => ?_
  simp only [List.mem_cons, List.not_mem_nil, or_false] at hc
  rcases hc with rfl | rfl | rfl | rfl <;> cases h

theorem isWord_of_mem_tagNames : ∀ name ∈ tagNames.map Prod.snd, IsWord name.toList := by
  decide

theorem code_eq_of_name_eq : ∀ t ∈ tagNames, ∀ u ∈ tagNames, t.2 = u.2 → t.1 = u.1 := by
  decide

def keywords : List (List Char) := ["null".toList, "true".toList, "false".toList]

def fixedWords : List (List Char) := keywords ++ tagNames.map fun t => t.2.toList

theorem not_numeral_of_mem : ∀ w ∈ fixedWords, w.all isNumeralChar = false := by
  decide

theorem name_not_mem_keywords : ∀ name ∈ tagNames.map Prod.snd, name.toList ∉ keywords := by
  decide

theorem chars_ne_of_mem {n : Number} {w : List Char} (hw : w ∈ fixedWords) : n.chars ≠ w := by
  rintro rfl
  have hchars := not_numeral_of_mem _ hw
  rw [List.all_eq_true.mpr n.isNumeralChar_chars] at hchars
  cases hchars

theorem numberChars_cases (n : Number) :
    (∃ code name, n.int? = some code ∧ (code, name) ∈ tagNames ∧ numberChars n = name.toList) ∨
      numberChars n = n.chars := by
  unfold numberChars
  split
  next name hname =>
    obtain ⟨code, hint, hcode⟩ := Option.bind_eq_some_iff.mp hname
    exact .inl ⟨code, name, hint, mem_tagNames hcode, rfl⟩
  next => exact .inr rfl

theorem isWord_numberChars (n : Number) : IsWord (numberChars n) := by
  obtain ⟨code, name, -, hname, hchars⟩ | hchars := numberChars_cases n
  · rw [hchars]
    exact isWord_of_mem_tagNames name (List.mem_map_of_mem hname)
  · rw [hchars]
    exact ⟨n.chars_ne_nil,
      List.all_eq_true.mpr fun c hc => isPlain_of_isNumeralChar (n.isNumeralChar_chars c hc)⟩

theorem numberChars_not_mem_keywords (n : Number) : numberChars n ∉ keywords := by
  obtain ⟨code, name, -, hname, hchars⟩ | hchars := numberChars_cases n
  · rw [hchars]
    exact name_not_mem_keywords name (List.mem_map_of_mem hname)
  · rw [hchars]
    exact fun hmem => chars_ne_of_mem (List.mem_append_left _ hmem) rfl

theorem numberChars_injective {m n : Number} (h : numberChars m = numberChars n) : m = n := by
  have hfixed : ∀ {t}, t ∈ tagNames → t.2.toList ∈ fixedWords :=
    fun ht => List.mem_append_right _ (List.mem_map_of_mem ht)
  obtain ⟨code, name, hcode, htag, hm⟩ | hm := numberChars_cases m
  · obtain ⟨code', name', hcode', htag', hn⟩ | hn := numberChars_cases n
    · rw [hm, hn] at h
      obtain rfl := code_eq_of_name_eq _ htag _ htag' (String.toList_injective h)
      cases m <;> cases n <;> cases hcode <;> cases hcode'
      rfl
    · rw [hm, hn] at h
      exact absurd h.symm (chars_ne_of_mem (hfixed htag))
  · obtain ⟨code', name', -, htag', hn⟩ | hn := numberChars_cases n
    · rw [hm, hn] at h
      exact absurd h (chars_ne_of_mem (hfixed htag'))
    · rw [hm, hn] at h
      exact Number.chars_injective h

theorem isWord_chars {j : Json} (h : formOf j = .word) : IsWord (chars j) := by
  match j, h with
  | .null, _ => decide
  | .bool true, _ | .bool false, _ => decide
  | .number n, _ => exact isWord_numberChars n

theorem chars_injective_of_word {a b : Json} (ha : formOf a = .word) (hb : formOf b = .word)
    (h : chars a = chars b) : a = b := by
  have hnull : ∀ n, chars .null ≠ numberChars n := fun n heq =>
    numberChars_not_mem_keywords n (heq ▸ (by decide : chars .null ∈ keywords))
  have hbool : ∀ c n, chars (.bool c) ≠ numberChars n := fun c n heq =>
    numberChars_not_mem_keywords n (heq ▸ (by decide : ∀ c, chars (.bool c) ∈ keywords) c)
  match a, b, ha, hb with
  | .null, .null, _, _ => rfl
  | .bool true, .bool true, _, _ | .bool false, .bool false, _, _ => rfl
  | .number m, .number n, _, _ => rw [numberChars_injective h]
  | .null, .number n, _, _ => exact absurd h (hnull n)
  | .bool c, .number n, _, _ => exact absurd h (hbool c n)
  | .number n, .null, _, _ => exact absurd h.symm (hnull n)
  | .number n, .bool c, _, _ => exact absurd h.symm (hbool c n)
  | .null, .bool true, _, _ | .null, .bool false, _, _ | .bool true, .null, _, _
  | .bool false, .null, _, _ | .bool true, .bool false, _, _ | .bool false, .bool true, _, _ =>
      exact absurd h (by decide)

/-! ## Where words and strings end -/

/-- Nothing follows but a comma or a closing bracket. -/
def Stops (r : List Char) : Prop := ∀ c, r.head? = some c → c = ',' ∨ c = ']'

theorem stops_comma (r : List Char) : Stops (',' :: r) := by
  rintro c ⟨⟩
  exact .inl rfl

theorem stops_close (r : List Char) : Stops (']' :: r) := by
  rintro c ⟨⟩
  exact .inr rfl

variable {w w' r r' : List Char}

theorem takeWhile_word (hw : IsWord w) (hr : Stops r) : (w ++ r).takeWhile isPlain = w := by
  have hstop : r.takeWhile isPlain = [] := by
    cases r with
    | nil => rfl
    | cons c r => obtain rfl | rfl := hr c rfl <;> rfl
  rw [List.takeWhile_append_of_pos (List.all_eq_true.mp hw.2), hstop, List.append_nil]

theorem word_append_inj (hw : IsWord w) (hw' : IsWord w') (hr : Stops r) (hr' : Stops r')
    (h : w ++ r = w' ++ r') : w = w' ∧ r = r' := by
  have heq : w = w' := by rw [← takeWhile_word hw hr, h, takeWhile_word hw' hr']
  subst heq
  exact ⟨rfl, List.append_cancel_left h⟩

theorem quoted_append_inj {s t : String} (h : Quoted.chars s ++ r = Quoted.chars t ++ r') :
    s = t ∧ r = r' := by
  have hbytes := congrArg encode h
  simp only [encode_append, Reader.encode_quoted, List.cons_append, List.append_assoc,
    List.nil_append, List.cons.injEq, true_and] at hbytes
  have hs := Reader.reads_string s (encode r)
  rw [hbytes] at hs
  obtain ⟨rfl, -⟩ := Reader.reads_unique hs (Reader.reads_string t (encode r'))
  exact ⟨rfl, List.append_cancel_left h⟩

/-! ## Lists in brackets -/

def restParts (ps : List (List Char)) : List Char := ps.flatMap fun p => ',' :: p

def bracketed : List (List Char) → List Char
  | [] => ['[', ']']
  | p :: ps => '[' :: (p ++ (restParts ps ++ [']']))

theorem restParts_cons (p : List Char) (ps : List (List Char)) :
    restParts (p :: ps) = ',' :: (p ++ restParts ps) := List.flatMap_cons

theorem stops_restParts (ps : List (List Char)) (r : List Char) :
    Stops (restParts ps ++ ']' :: r) := by
  cases ps with
  | nil => exact stops_close r
  | cons p ps => exact stops_comma _

section Parts

variable {α : Type} {R : α → α → Prop} {write : α → List Char} {xs ys : List α}

/-- Before a text that stops, the text of `x` shows where it ends, and is the text of nothing
but what is related to `x`. -/
def Determined (R : α → α → Prop) (write : α → List Char) (x : α) : Prop :=
  ∀ y r r', Stops r → Stops r' → write x ++ r = write y ++ r' → R x y ∧ r = r'

theorem restParts_append_inj (hxs : ∀ x ∈ xs, Determined R write x)
    (h : restParts (xs.map write) ++ ']' :: r = restParts (ys.map write) ++ ']' :: r') :
    List.Forall₂ R xs ys ∧ r = r' := by
  induction xs generalizing ys with
  | nil =>
      cases ys with
      | nil => exact ⟨.nil, List.tail_eq_of_cons_eq h⟩
      | cons y ys => cases h
  | cons x xs ih =>
      cases ys with
      | nil => cases h
      | cons y ys =>
          obtain ⟨hx, hxs⟩ := List.forall_mem_cons.mp hxs
          simp only [List.map_cons, restParts_cons, List.cons_append, List.append_assoc,
            List.cons.injEq, true_and] at h
          obtain ⟨hxy, hrest⟩ := hx y _ _ (stops_restParts _ r) (stops_restParts _ r') h
          obtain ⟨hxsys, hr⟩ := ih hxs hrest
          exact ⟨.cons hxy hxsys, hr⟩

theorem bracketed_append_inj (hopen : ∀ x, ∃ c cs, write x = c :: cs ∧ c ≠ ']')
    (hxs : ∀ x ∈ xs, Determined R write x)
    (h : bracketed (xs.map write) ++ r = bracketed (ys.map write) ++ r') :
    List.Forall₂ R xs ys ∧ r = r' := by
  cases xs with
  | nil =>
      cases ys with
      | nil => exact ⟨.nil, by simpa [bracketed] using h⟩
      | cons y ys =>
          obtain ⟨c, cs, hy, hc⟩ := hopen y
          simp [bracketed, hy, hc.symm] at h
  | cons x xs =>
      cases ys with
      | nil =>
          obtain ⟨c, cs, hx, hc⟩ := hopen x
          simp [bracketed, hx, hc] at h
      | cons y ys =>
          have hrest : restParts ((x :: xs).map write) ++ ']' :: r =
              restParts ((y :: ys).map write) ++ ']' :: r' := by
            simpa [bracketed, restParts_cons] using h
          exact restParts_append_inj hxs hrest

end Parts

/-! ## Entries of lists -/

abbrev Entry := Option String × Json

def entryChars : Entry → List Char
  | (none, v) => chars v
  | (some name, v) => Quoted.chars name ++ '=' :: '>' :: chars v

def entries : Json → List Entry
  | .array xs => xs.map fun x => (none, x)
  | .object ms => ms.map fun m => (some m.1, m.2)
  | _ => []

def AlikeEntry (e e' : Entry) : Prop := e.1 = e'.1 ∧ Alike e.2 e'.2

def formOfHead (c : Char) : Form :=
  if c = '"' then .quoted else if c = '[' then .list else .word

theorem chars_array (xs : List Json) : chars (.array xs) = bracketed (xs.map chars) := by
  cases xs with
  | nil => rfl
  | cons x xs =>
      have hrest : charsRest xs = restParts (xs.map chars) := by
        rw [charsRest_eq_restChars, restParts, List.flatMap_map]
        rfl
      simp [chars, hrest, bracketed]

theorem chars_object (ms : List (String × Json)) : chars (.object ms) =
    bracketed (ms.map fun m => Quoted.chars m.1 ++ '=' :: '>' :: chars m.2) := by
  cases ms with
  | nil => rfl
  | cons m ms =>
      have hrest : charsRestMembers ms =
          restParts (ms.map fun m => Quoted.chars m.1 ++ '=' :: '>' :: chars m.2) := by
        rw [charsRestMembers_eq_flatMap, restParts, List.flatMap_map]
        rfl
      simp [chars, hrest, bracketed]

theorem chars_of_list {j : Json} (h : formOf j = .list) :
    chars j = bracketed ((entries j).map entryChars) := by
  cases j with
  | array xs =>
      rw [chars_array, entries, List.map_map]
      rfl
  | object ms =>
      rw [chars_object, entries, List.map_map]
      rfl
  | _ => cases h

theorem exists_head_chars (j : Json) :
    ∃ c cs, chars j = c :: cs ∧ formOfHead c = formOf j ∧ c ≠ ']' := by
  have hword : ∀ j, formOf j = .word →
      ∃ c cs, chars j = c :: cs ∧ formOfHead c = .word ∧ c ≠ ']' := by
    intro j hj
    obtain ⟨hne, hplain⟩ := isWord_chars hj
    obtain ⟨c, cs, hc⟩ := List.exists_cons_of_ne_nil hne
    have hhead := List.all_eq_true.mp hplain c (hc ▸ List.mem_cons_self)
    simp only [isPlain, List.mem_cons, List.not_mem_nil, or_false, not_or,
      decide_eq_true_eq] at hhead
    exact ⟨c, cs, hc, by simp [formOfHead, hhead], hhead.2.1⟩
  cases j with
  | null => exact hword _ rfl
  | bool b => exact hword (.bool b) rfl
  | number n => exact hword (.number n) rfl
  | string s => exact ⟨'"', _, rfl, rfl, by decide⟩
  | array xs =>
      rw [chars_of_list rfl]
      cases xs <;> exact ⟨'[', _, rfl, rfl, by decide⟩
  | object ms =>
      rw [chars_of_list rfl]
      cases ms <;> exact ⟨'[', _, rfl, rfl, by decide⟩

theorem exists_head_entryChars (e : Entry) : ∃ c cs, entryChars e = c :: cs ∧ c ≠ ']' := by
  match e with
  | (none, v) =>
      obtain ⟨c, cs, hchars, -, hc⟩ := exists_head_chars v
      exact ⟨c, cs, hchars, hc⟩
  | (some name, v) => exact ⟨'"', _, rfl, by decide⟩

theorem formOf_eq {a b : Json} (h : chars a ++ r = chars b ++ r') : formOf a = formOf b := by
  obtain ⟨c, cs, ha, hform, -⟩ := exists_head_chars a
  obtain ⟨c', cs', hb, hform', -⟩ := exists_head_chars b
  rw [ha, hb] at h
  obtain rfl : c = c' := List.head_eq_of_cons_eq h
  rw [← hform, hform']

/-! ## Trees -/

theorem alike_of_entries {a b : Json} (ha : formOf a = .list) (hb : formOf b = .list)
    (h : List.Forall₂ AlikeEntry (entries a) (entries b)) : Alike a b := by
  cases a with
  | array xs =>
      cases b with
      | array ys =>
          simp only [entries, List.forall₂_map_left_iff, List.forall₂_map_right_iff] at h
          exact .array (h.imp fun _ _ => And.right)
      | object ns =>
          cases xs <;> cases ns <;> simp [entries, AlikeEntry] at h
          exact .emptyObject
      | _ => cases hb
  | object ms =>
      cases b with
      | array ys =>
          cases ms <;> cases ys <;> simp [entries, AlikeEntry] at h
          exact .emptyArray
      | object ns =>
          simp only [entries, List.forall₂_map_left_iff, List.forall₂_map_right_iff] at h
          have hmembers : List.Forall₂ (fun m n => m.1 = n.1 ∧ Alike m.2 n.2) ms ns :=
            h.imp fun _ _ hmn => ⟨Option.some.inj hmn.1, hmn.2⟩
          obtain ⟨names, values⟩ := forall₂_pairs_iff.mp hmembers
          exact .object names values
      | _ => cases hb
  | _ => cases ha

theorem alike_word {a : Json} (h : formOf a = .word) : Alike a a := by
  refine .scalar ?_
  match a, h with
  | .null, _ | .bool _, _ | .number _, _ => trivial

theorem determined_word {a : Json} (ha : formOf a = .word) : Determined Alike chars a := by
  intro b r r' hr hr' h
  have hb : formOf b = .word := formOf_eq h ▸ ha
  obtain ⟨hchars, hrest⟩ := word_append_inj (isWord_chars ha) (isWord_chars hb) hr hr' h
  obtain rfl := chars_injective_of_word ha hb hchars
  exact ⟨alike_word ha, hrest⟩

theorem determined_string (s : String) : Determined Alike chars (.string s) := by
  intro b r r' _ _ h
  have hform := formOf_eq h
  cases b with
  | string t =>
      obtain ⟨rfl, hrest⟩ := quoted_append_inj h
      exact ⟨.scalar trivial, hrest⟩
  | _ => cases hform

theorem not_stops_arrow (cs : List Char) : ¬ Stops ('=' :: cs) := by
  intro hstops
  have hhead := hstops '=' rfl
  revert hhead
  decide

theorem item_append_ne {v w : Json} {name : String} (hr : Stops r) :
    entryChars (none, v) ++ r ≠ entryChars (some name, w) ++ r' := by
  intro h
  simp only [entryChars, List.append_assoc] at h
  have hform := formOf_eq (b := .string name) h
  cases v with
  | string s =>
      obtain ⟨-, rfl⟩ := quoted_append_inj h
      exact not_stops_arrow _ hr
  | _ => cases hform

theorem determined_entry {e : Entry} (h : Determined Alike chars e.2) :
    Determined AlikeEntry entryChars e := by
  intro e' r r' hr hr' heq
  obtain ⟨name, v⟩ := e
  obtain ⟨name', w⟩ := e'
  cases name with
  | none =>
      cases name' with
      | none =>
          obtain ⟨hvw, hrest⟩ := h w r r' hr hr' heq
          exact ⟨⟨rfl, hvw⟩, hrest⟩
      | some name' => exact absurd heq (item_append_ne hr)
  | some name =>
      cases name' with
      | none => exact absurd heq.symm (item_append_ne hr')
      | some name' =>
          simp only [entryChars, List.append_assoc] at heq
          obtain ⟨rfl, hvalue⟩ := quoted_append_inj heq
          simp only [List.cons_append, List.cons.injEq, true_and] at hvalue
          obtain ⟨hvw, hrest⟩ := h w r r' hr hr' hvalue
          exact ⟨⟨rfl, hvw⟩, hrest⟩

theorem determined_list {a : Json} (ha : formOf a = .list)
    (hentries : ∀ e ∈ entries a, Determined Alike chars e.2) : Determined Alike chars a := by
  intro b r r' _ _ h
  have hb : formOf b = .list := formOf_eq h ▸ ha
  rw [chars_of_list ha, chars_of_list hb] at h
  obtain ⟨halike, hrest⟩ := bracketed_append_inj exists_head_entryChars
    (fun e he => determined_entry (hentries e he)) h
  exact ⟨alike_of_entries ha hb halike, hrest⟩

theorem determined (a : Json) : Determined Alike chars a := by
  induction a using parts_induction with
  | null => exact determined_word rfl
  | bool b => exact determined_word rfl
  | number n => exact determined_word rfl
  | string s => exact determined_string s
  | array xs ih => exact determined_list rfl (List.forall_mem_map.mpr ih)
  | object ms ih => exact determined_list rfl (List.forall_mem_map.mpr ih)

theorem chars_eq_of_alike {a b : Json} (h : Alike a b) : chars a = chars b := by
  induction a using parts_induction generalizing b with
  | null | bool _ | number _ | string _ =>
      cases h
      rfl
  | array xs ih =>
      cases h with
      | scalar leaf => exact leaf.elim
      | array items =>
          have hitems := forall₂_imp_of_mem (fun x y hx => ih x hx) items
          rw [chars_array, chars_array, map_eq_of_forall₂ (fun _ _ => Eq.symm) hitems]
      | emptyObject => rfl
  | object ms ih =>
      cases h with
      | scalar leaf => exact leaf.elim
      | @object _ ns names values =>
          have hmembers : List.Forall₂ (fun m n => m.1 = n.1 ∧ chars m.2 = chars n.2) ms ns :=
            forall₂_imp_of_mem (fun m n hm hmn => ⟨hmn.1, ih m hm hmn.2⟩)
              (forall₂_pairs_iff.mpr ⟨names, values⟩)
          rw [chars_object, chars_object, map_eq_of_forall₂ (fun m n hmn => ?_) hmembers]
          rw [hmn.1, hmn.2]
      | emptyArray => rfl

end Fragment

/-- Two fragments have the same text exactly if they are the same tree, in the order of items and
members and down to the class and value of each number, but for empty arrays and objects that
stand for one another. -/
theorem render_eq_iff_alike (a b : Json) :
    Fragment.render a = Fragment.render b ↔ Fragment.Alike a b := by
  rw [Fragment.render, Fragment.render, String.ofList_inj]
  refine ⟨fun h => ?_, Fragment.chars_eq_of_alike⟩
  have hnil : Fragment.Stops [] := nofun
  exact (Fragment.determined a b [] [] hnil hnil (by rw [h])).1

end SchemaSieve
