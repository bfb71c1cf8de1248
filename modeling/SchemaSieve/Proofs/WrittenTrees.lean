import SchemaSieve.Json.Printer
import SchemaSieve.Proofs.Literals
import SchemaSieve.Proofs.Names

/-!
# Written trees are read back

What stands for a tree in a text is read as that tree, whatever follows it as long as it
ends the last literal.  Lists and objects are put together from what stands for their
items and members, with blanks after commas, colons and before the closing bracket, so
the same lemmas serve a compact text and an indented one.
-/

namespace SchemaSieve.Json.Reader

variable {s rest w : Bytes} {n : Nat} {j : Json}

/-! ## Blanks -/

def Blank (w : Bytes) : Prop := ∀ b ∈ w, isSpace b = true

theorem skipSpace_append (hw : Blank w) : skipSpace (w ++ s) = skipSpace s := by
  induction w with
  | nil => rfl
  | cons b w ih =>
      obtain ⟨hb, hw⟩ := List.forall_mem_cons.mp hw
      rw [List.cons_append, skipSpace, List.dropWhile_cons_of_pos hb]
      exact ih hw

theorem skipSpace_cons {b : UInt8} (hb : isSpace b = false) : skipSpace (b :: s) = b :: s :=
  List.dropWhile_cons_of_neg (by simp [hb])

theorem isSpace_iff {b : UInt8} :
    isSpace b = true ↔ b = 32 ∨ b = 10 ∨ b = 9 ∨ b = 13 := by
  simp [isSpace, or_assoc]

theorem delimited_of_isSpace {b : UInt8} (hb : isSpace b = true) : Delimited (b :: s) := by
  intro c hc
  cases hc
  rcases isSpace_iff.mp hb with rfl | rfl | rfl | rfl <;> decide

theorem delimited_append (hw : Blank w) (hs : Delimited s) : Delimited (w ++ s) := by
  cases w with
  | nil => exact hs
  | cons b w => exact delimited_of_isSpace (hw b (List.mem_cons_self ..))

theorem delimited_nil : Delimited [] := by
  rintro b ⟨⟩

theorem delimited_cons {b : UInt8} (hdigit : isDigitByte b = false) (hpoint : b ≠ byte '.')
    (hmark : isExponentMark b = false) : Delimited (b :: s) := by
  intro c hc
  cases hc
  exact ⟨hdigit, hpoint, hmark⟩

theorem delimited_comma : Delimited (byte ',' :: s) :=
  delimited_cons (by decide) (by decide) (by decide)

theorem delimited_bracket : Delimited (byte ']' :: s) :=
  delimited_cons (by decide) (by decide) (by decide)

theorem delimited_brace : Delimited (byte '}' :: s) :=
  delimited_cons (by decide) (by decide) (by decide)

/-! ## Spelled trees -/

/-- The bytes stand for a tree of at most the given nesting. -/
structure Spells (n : Nat) (j : Json) (bs : Bytes) : Prop where
  reads : ∀ rest, Delimited rest → Reads (tree n) (bs ++ rest) j rest
  starts : ∃ b t, bs = b :: t ∧ isSpace b = false ∧ b ≠ byte ']'

theorem tree_eq_treeWith (n : Nat) : ∃ list object, tree n = treeWith list object := by
  cases n with
  | zero => exact ⟨_, _, rfl⟩
  | succ n => exact ⟨_, _, rfl⟩

theorem reads_tree_append (hw : Blank w) : Reads (tree n) (w ++ s) j rest ↔
    Reads (tree n) s j rest := by
  obtain ⟨list, object, htree⟩ := tree_eq_treeWith n
  rw [htree, treeWith, reads_lookPastSpace_bind, reads_lookPastSpace_bind, skipSpace_append hw]

theorem spells_of_reads {bs t : Bytes} {b : UInt8} (hbs : bs = b :: t)
    (hspace : isSpace b = false) (hclose : b ≠ byte ']')
    (h : ∀ list object : Reader Json, tree n = treeWith list object → ∀ rest, Delimited rest →
      Reads (treeWith list object) (bs ++ rest) j rest) : Spells n j bs := by
  obtain ⟨list, object, htree⟩ := tree_eq_treeWith n
  refine ⟨fun rest hrest => ?_, ⟨b, t, hbs, hspace, hclose⟩⟩
  rw [htree]
  exact h list object htree rest hrest

/-! ## Scalars -/

theorem reads_word_then {bs : Bytes} :
    Reads (do word bs; pure j) (bs ++ rest) j rest := by
  rw [reads_bind]
  exact ⟨(), rest, reads_word.mpr rfl, reads_pure.mpr ⟨rfl, rfl⟩⟩

theorem spells_null (n : Nat) : Spells n .null (encode "null".toList) := by
  have hbytes : encode "null".toList = byte 'n' :: [byte 'u', byte 'l', byte 'l'] :=
    encode_of_ascii (by simp)
  refine spells_of_reads hbytes (by decide) (by decide) fun list object _ rest _ => ?_
  rw [hbytes, treeWith, reads_lookPastSpace_bind, List.cons_append, skipSpace_cons (by decide)]
  exact reads_skip_bind.mpr reads_word_then

theorem spells_bool (n : Nat) (b : Bool) : Spells n (.bool b) (encode (boolChars b)) := by
  cases b with
  | true =>
      have hbytes : encode (boolChars true) = byte 't' :: [byte 'r', byte 'u', byte 'e'] :=
        encode_of_ascii (by simp [boolChars])
      refine spells_of_reads hbytes (by decide) (by decide) fun list object _ rest _ => ?_
      rw [hbytes, treeWith, reads_lookPastSpace_bind, List.cons_append, skipSpace_cons (by decide)]
      exact reads_skip_bind.mpr reads_word_then
  | false =>
      have hbytes : encode (boolChars false) =
          byte 'f' :: [byte 'a', byte 'l', byte 's', byte 'e'] :=
        encode_of_ascii (by simp [boolChars])
      refine spells_of_reads hbytes (by decide) (by decide) fun list object _ rest _ => ?_
      rw [hbytes, treeWith, reads_lookPastSpace_bind, List.cons_append, skipSpace_cons (by decide)]
      exact reads_skip_bind.mpr reads_word_then

theorem spells_string (n : Nat) (t : String) : Spells n (.string t) (encode (Quoted.chars t)) := by
  refine spells_of_reads (encode_quoted t) (by decide) (by decide) fun list object _ rest _ => ?_
  rw [encode_quoted, treeWith, reads_lookPastSpace_bind, List.cons_append,
    skipSpace_cons (by decide), List.append_assoc]
  refine reads_skip_bind.mpr ?_
  rw [reads_bind]
  exact ⟨t, rest, reads_string t rest, reads_pure.mpr ⟨rfl, rfl⟩⟩

theorem head_of_reads_number {num : Number} (h : Reads number s num rest) :
    ∃ b t, s = b :: t ∧ (b = byte '-' ∨ isDigitByte b = true) := by
  rw [number, reads_look_bind] at h
  cases s with
  | nil => simp [unsignedNumber] at h
  | cons b t =>
      refine ⟨b, t, rfl, ?_⟩
      by_cases hminus : b = byte '-'
      · exact .inl hminus
      · right
        by_contra hdigit
        have hzero : b ≠ byte '0' := by
          rintro rfl
          exact hdigit (by decide)
        simp [hminus, unsignedNumber, hzero, hdigit] at h

theorem spells_number {num : Number} {bs : Bytes} (n : Nat)
    (h : ∀ rest, Delimited rest → Reads number (bs ++ rest) num rest) :
    Spells n (.number num) bs := by
  have hhead := h [] delimited_nil
  rw [List.append_nil] at hhead
  obtain ⟨b, t, hbs, hb⟩ := head_of_reads_number hhead
  have hne : ∀ c, c ≠ byte '-' → isDigitByte c = false → b ≠ c := by
    rintro c hminus hdigit rfl
    rcases hb with h | h
    · exact hminus h
    · rw [hdigit] at h
      cases h
  have hspace : isSpace b = false := by
    rw [Bool.eq_false_iff, Ne, isSpace_iff]
    rintro (h | h | h | h) <;> exact hne _ (by decide) (by decide) h
  refine spells_of_reads hbs hspace (hne _ (by decide) (by decide))
    fun list object _ rest hrest => ?_
  have hread := h rest hrest
  rw [hbs, List.cons_append] at hread ⊢
  rw [treeWith, reads_lookPastSpace_bind, skipSpace_cons hspace]
  have hstart : (decide (b = byte '-') || isDigitByte b) = true := by simpa using hb
  simp only [List.head?_cons, hne (byte 'n') (by decide) (by decide),
    hne (byte 't') (by decide) (by decide), hne (byte 'f') (by decide) (by decide), if_false,
    hstart, if_true]
  rw [reads_bind]
  exact ⟨num, rest, hread, reads_pure.mpr ⟨rfl, rfl⟩⟩

/-! ## Lists -/

section Containers

variable {sep : Bytes}

def itemBytes (sep : Bytes) (bs : List Bytes) : Bytes := bs.flatMap fun b => byte ',' :: (sep ++ b)

theorem delimited_itemBytes {bs : List Bytes} (hs : Delimited s) :
    Delimited (itemBytes sep bs ++ s) := by
  cases bs with
  | nil => exact hs
  | cons b bs =>
      rw [itemBytes, List.flatMap_cons, List.append_assoc, List.cons_append]
      exact delimited_comma

theorem reads_itemsFrom_spelled {x : Json} {xs : List Json} {b : Bytes} {bs : List Bytes}
    (hb : Spells n x b) (hbs : List.Forall₂ (Spells n) xs bs) (hsep : Blank sep) (hw : Blank w)
    (i : Nat) (rest : Bytes) :
    Reads (itemsFrom (tree n) i) (b ++ (itemBytes sep bs ++ (w ++ byte ']' :: rest))) (x :: xs)
      rest := by
  induction hbs generalizing x b i with
  | nil =>
      refine reads_itemsFrom.mpr ⟨x, _, hb.reads _ ?_, .inl ⟨?_, rfl⟩⟩
      · exact delimited_itemBytes (delimited_append hw delimited_bracket)
      · rw [itemBytes, List.flatMap_nil, List.nil_append, skipSpace_append hw]
        exact skipSpace_cons (by decide)
  | @cons y c ys cs hc hcs ih =>
      obtain ⟨first, t, hfirst, hspace, hclose⟩ := hc.starts
      have hrest := ih hc (i + 1)
      have hcomma : skipSpace (itemBytes sep (c :: cs) ++ (w ++ byte ']' :: rest)) =
          byte ',' :: (sep ++ (c ++ (itemBytes sep cs ++ (w ++ byte ']' :: rest)))) := by
        rw [itemBytes, List.flatMap_cons, ← itemBytes, List.append_assoc, List.cons_append,
          List.append_assoc]
        exact skipSpace_cons (by decide)
      have hnext : skipSpace (sep ++ (c ++ (itemBytes sep cs ++ (w ++ byte ']' :: rest)))) =
          first :: (t ++ (itemBytes sep cs ++ (w ++ byte ']' :: rest))) := by
        rw [skipSpace_append hsep, hfirst, List.cons_append]
        exact skipSpace_cons hspace
      rw [hfirst, List.cons_append] at hrest
      refine reads_itemsFrom.mpr
        ⟨x, _, hb.reads _ ?_, .inr ⟨_, _, _, _, hcomma, hnext, hclose, hrest, rfl⟩⟩
      exact delimited_itemBytes (delimited_append hw delimited_bracket)

theorem spells_array_nil (n : Nat) : Spells (n + 1) (.array []) [byte '[', byte ']'] := by
  refine ⟨fun rest _ => ?_, ⟨_, _, rfl, by decide, by decide⟩⟩
  rw [tree, treeWith, reads_lookPastSpace_bind, List.cons_append, skipSpace_cons (by decide)]
  refine reads_skip_bind.mpr ?_
  rw [reads_bind]
  refine ⟨[], rest, reads_items.mpr (.inl ⟨?_, rfl⟩), reads_pure.mpr ⟨rfl, rfl⟩⟩
  exact skipSpace_cons (by decide)

theorem spells_array {x : Json} {xs : List Json} {b : Bytes} {bs : List Bytes}
    (hb : Spells n x b) (hbs : List.Forall₂ (Spells n) xs bs) (hsep : Blank sep) (hw : Blank w) :
    Spells (n + 1) (.array (x :: xs))
      (byte '[' :: (sep ++ (b ++ (itemBytes sep bs ++ (w ++ [byte ']']))))) := by
  refine ⟨fun rest _ => ?_, ⟨_, _, rfl, by decide, by decide⟩⟩
  have hitems := reads_itemsFrom_spelled hb hbs hsep hw 0 rest
  obtain ⟨first, t, hfirst, hspace, hclose⟩ := hb.starts
  rw [tree, treeWith, reads_lookPastSpace_bind, List.cons_append, skipSpace_cons (by decide)]
  refine reads_skip_bind.mpr ?_
  rw [reads_bind]
  refine ⟨x :: xs, rest, reads_items.mpr (.inr ⟨first, ?_, hclose, ?_⟩),
    reads_pure.mpr ⟨rfl, rfl⟩⟩
  · simp only [List.tail_cons, List.append_assoc]
    rw [skipSpace_append hsep, hfirst, List.cons_append, skipSpace_cons hspace]
    rfl
  · simp only [List.tail_cons, List.append_assoc]
    rw [skipSpace_append hsep, hfirst, List.cons_append, skipSpace_cons hspace]
    rw [hfirst, List.cons_append] at hitems
    exact hitems

/-! ## Objects -/

variable {gap : Bytes}

def memberBytes (gap : Bytes) (m : String × Bytes) : Bytes :=
  encode (m.1.toList.flatMap Quoted.escape) ++ byte '"' :: byte ':' :: (gap ++ m.2)

def restBytes (sep gap : Bytes) (bs : List (String × Bytes)) : Bytes :=
  bs.flatMap fun b => byte ',' :: (sep ++ byte '"' :: memberBytes gap b)

def SpellsMember (n : Nat) (m : String × Json) (b : String × Bytes) : Prop :=
  m.1 = b.1 ∧ Spells n m.2 b.2

theorem delimited_restBytes {bs : List (String × Bytes)} (hs : Delimited s) :
    Delimited (restBytes sep gap bs ++ s) := by
  cases bs with
  | nil => exact hs
  | cons b bs =>
      rw [restBytes, List.flatMap_cons, List.append_assoc, List.cons_append]
      exact delimited_comma

theorem reads_treeMember {acc : Members Json} {m : String × Json} {b : String × Bytes}
    (hb : SpellsMember n m b) (hgap : Blank gap) (hnew : m.1 ∉ acc.names) (hs : Delimited s) :
    Reads (treeMember (tree n) acc m.1) (byte ':' :: (gap ++ (b.2 ++ s))) (acc ++ [m]) s := by
  have hvalue : Reads (tree n) (gap ++ (b.2 ++ s)) m.2 s :=
    (reads_tree_append hgap).mpr (hb.2.reads s hs)
  rw [treeMember, reads_bind]
  refine ⟨(), _, reads_colon.mpr (skipSpace_cons (by decide)), ?_⟩
  rw [reads_bind]
  refine ⟨m.2, s, reads_within.mpr hvalue, reads_pure.mpr ⟨?_, rfl⟩⟩
  exact (Members.put_of_not_mem m.2 hnew).symm

theorem reads_name {m : String × Json} {b : String × Bytes} (hb : SpellsMember n m b) :
    Reads string (memberBytes gap b ++ s) m.1 (byte ':' :: (gap ++ (b.2 ++ s))) := by
  rw [memberBytes, hb.1, List.append_assoc, List.cons_append, List.cons_append, List.append_assoc]
  exact reads_string b.1 _

theorem not_mem_names_of_nodup {acc ms : Members Json} {m : String × Json}
    (h : (Members.names (acc ++ m :: ms)).Nodup) : m.1 ∉ acc.names := by
  simp only [Members.names, List.map_append, List.map_cons, List.nodup_append] at h
  exact fun hmem => h.2.2 m.1 hmem m.1 (List.mem_cons_self ..) rfl

theorem reads_membersFrom_spelled (acc : Members Json) {m : String × Json}
    {ms : List (String × Json)} {b : String × Bytes} {bs : List (String × Bytes)}
    (hb : SpellsMember n m b) (hbs : List.Forall₂ (SpellsMember n) ms bs) (hsep : Blank sep)
    (hgap : Blank gap) (hw : Blank w) (hnames : (Members.names (acc ++ m :: ms)).Nodup)
    (rest : Bytes) :
    Reads (membersFrom (treeMember (tree n)) acc)
      (memberBytes gap b ++ (restBytes sep gap bs ++ (w ++ byte '}' :: rest)))
      (acc ++ m :: ms) rest := by
  induction hbs generalizing acc m b with
  | nil =>
      have hmember := reads_treeMember (s := restBytes sep gap [] ++ (w ++ byte '}' :: rest)) hb
        hgap (not_mem_names_of_nodup hnames)
        (delimited_restBytes (delimited_append hw delimited_brace))
      refine reads_membersFrom.mpr ⟨m.1, _, _, _, reads_name hb, hmember, .inl ⟨?_, rfl⟩⟩
      rw [restBytes, List.flatMap_nil, List.nil_append, skipSpace_append hw]
      exact skipSpace_cons (by decide)
  | @cons m' b' ms bs hb' hbs ih =>
      have hmember := reads_treeMember
        (s := restBytes sep gap (b' :: bs) ++ (w ++ byte '}' :: rest)) hb hgap
        (not_mem_names_of_nodup hnames)
        (delimited_restBytes (delimited_append hw delimited_brace))
      have hcomma : skipSpace (restBytes sep gap (b' :: bs) ++ (w ++ byte '}' :: rest)) =
          byte ',' :: (sep ++ byte '"' ::
            (memberBytes gap b' ++ (restBytes sep gap bs ++ (w ++ byte '}' :: rest)))) := by
        rw [restBytes, List.flatMap_cons, ← restBytes, List.append_assoc, List.cons_append,
          List.append_assoc, List.cons_append]
        exact skipSpace_cons (by decide)
      have hquote : skipSpace (sep ++ byte '"' ::
          (memberBytes gap b' ++ (restBytes sep gap bs ++ (w ++ byte '}' :: rest)))) =
          byte '"' :: (memberBytes gap b' ++ (restBytes sep gap bs ++ (w ++ byte '}' :: rest))) := by
        rw [skipSpace_append hsep]
        exact skipSpace_cons (by decide)
      have hassoc : acc ++ m :: m' :: ms = acc ++ [m] ++ m' :: ms := by simp
      rw [hassoc] at hnames ⊢
      have hrest := ih (acc ++ [m]) hb' hnames
      exact reads_membersFrom.mpr
        ⟨m.1, _, _, _, reads_name hb, hmember, .inr ⟨_, _, hcomma, hquote, hrest⟩⟩

theorem spells_object_nil (n : Nat) : Spells (n + 1) (.object []) [byte '{', byte '}'] := by
  refine ⟨fun rest _ => ?_, ⟨_, _, rfl, by decide, by decide⟩⟩
  rw [tree, treeWith, reads_lookPastSpace_bind, List.cons_append, skipSpace_cons (by decide)]
  refine reads_skip_bind.mpr ?_
  rw [reads_bind]
  refine ⟨[], rest, reads_members.mpr (.inl ⟨?_, rfl⟩), reads_pure.mpr ⟨rfl, rfl⟩⟩
  exact skipSpace_cons (by decide)

theorem spells_object {m : String × Json} {ms : List (String × Json)} {b : String × Bytes}
    {bs : List (String × Bytes)} (hb : SpellsMember n m b)
    (hbs : List.Forall₂ (SpellsMember n) ms bs) (hsep : Blank sep) (hgap : Blank gap)
    (hw : Blank w) (hnames : (Members.names (m :: ms)).Nodup) :
    Spells (n + 1) (.object (m :: ms))
      (byte '{' :: (sep ++ byte '"' ::
        (memberBytes gap b ++ (restBytes sep gap bs ++ (w ++ [byte '}']))))) := by
  refine ⟨fun rest _ => ?_, ⟨_, _, rfl, by decide, by decide⟩⟩
  have hmembers := reads_membersFrom_spelled [] hb hbs hsep hgap hw hnames rest
  rw [tree, treeWith, reads_lookPastSpace_bind, List.cons_append, skipSpace_cons (by decide)]
  refine reads_skip_bind.mpr ?_
  rw [reads_bind]
  refine ⟨m :: ms, rest, reads_members.mpr (.inr ⟨_, ?_, hmembers⟩), reads_pure.mpr ⟨rfl, rfl⟩⟩
  simp only [List.tail_cons, List.append_assoc, List.cons_append]
  rw [skipSpace_append hsep, skipSpace_cons (by decide)]
  rfl

end Containers

/-! ## Documents -/

theorem run_document {bs : Bytes} (h : Spells containerLimit j bs) :
    document.run bs = .ok j := by
  have hread := h.reads [] delimited_nil
  rw [List.append_nil] at hread
  have hdocument : Reads document bs j [] := by
    rw [document, reads_bind]
    refine ⟨j, [], hread, ?_⟩
    rw [reads_bind]
    refine ⟨(), [], ?_, reads_pure.mpr ⟨rfl, rfl⟩⟩
    rw [finish, reads_lookPastSpace_bind]
    exact reads_pure.mpr ⟨rfl, rfl⟩
  obtain ⟨hle, hok⟩ := hdocument
  rw [run, hok]
  rfl

end SchemaSieve.Json.Reader
