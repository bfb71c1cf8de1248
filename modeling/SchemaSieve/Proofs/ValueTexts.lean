import SchemaSieve.Proofs.Conforming
import SchemaSieve.Proofs.DecidableEquality
import SchemaSieve.Proofs.Layouts

/-!
# Values read from their own texts

A value is lowered to a tree and the tree is written, compact or pretty.  Decoding reads
the tree again and lifts it, and of all leaves only doubles can have changed on the way:
lowering keeps the sign of an integer that needs none, and lifting gives it back.
-/

namespace SchemaSieve

/-! ## Changing doubles -/

namespace Value

mutual
def mapFloats (f : Double → Double) : Value → Value
  | .float x => .float (f x)
  | .sequence xs => .sequence (mapFloatsItems f xs)
  | .mapping ms => .mapping (mapFloatsMembers f ms)
  | v => v

def mapFloatsItems (f : Double → Double) : List Value → List Value
  | [] => []
  | x :: xs => x.mapFloats f :: mapFloatsItems f xs

def mapFloatsMembers (f : Double → Double) : List (String × Value) → List (String × Value)
  | [] => []
  | (name, v) :: ms => (name, v.mapFloats f) :: mapFloatsMembers f ms
end

/-- The value with each double as its own text is read. -/
def reread (v : Value) : Value := v.mapFloats Double.reread

variable {f : Double → Double}

theorem mapFloats_sequence (xs : List Value) :
    (Value.sequence xs).mapFloats f = .sequence (xs.map (mapFloats f)) := by
  rw [mapFloats]
  congr 1
  induction xs with
  | nil => rfl
  | cons x xs ih => rw [mapFloatsItems, ih, List.map_cons]

theorem mapFloats_mapping (ms : List (String × Value)) :
    (Value.mapping ms).mapFloats f = .mapping (ms.map fun m => (m.1, m.2.mapFloats f)) := by
  rw [mapFloats]
  congr 1
  induction ms with
  | nil => rfl
  | cons m ms ih => rw [mapFloatsMembers, ih, List.map_cons]

@[simp] theorem isContainer_mapFloats (v : Value) :
    (v.mapFloats f).isContainer = v.isContainer := by
  cases v <;> rfl

theorem indexed_map (i : Nat) (xs : List Value) :
    indexed i (xs.map (mapFloats f)) =
      (indexed i xs).map fun e => (e.1, e.2.mapFloats f) := by
  induction xs generalizing i with
  | nil => rfl
  | cons x xs ih => rw [List.map_cons, indexed, indexed, List.map_cons, ih]

theorem entries_mapFloats (v : Value) :
    (v.mapFloats f).entries = v.entries.map fun e => (e.1, e.2.mapFloats f) := by
  cases v with
  | sequence xs =>
      rw [mapFloats_sequence]
      exact indexed_map 0 xs
  | mapping ms => rw [mapFloats_mapping, entries, entries]
  | _ => rfl

theorem names_entries_mapFloats (v : Value) :
    Members.names (v.mapFloats f).entries = Members.names v.entries := by
  rw [entries_mapFloats]
  exact Members.names_map (mapFloats f) v.entries

theorem elements_mapFloats (v : Value) :
    (v.mapFloats f).elements = v.elements.map (mapFloats f) := by
  rw [elements_eq_map_entries, elements_eq_map_entries, entries_mapFloats, List.map_map,
    List.map_map]
  rfl

theorem nesting_mapFloats (v : Value) : (v.mapFloats f).nesting = v.nesting := by
  induction v using elements_induction with
  | step v ih =>
      cases hv : v.isContainer with
      | false =>
          rw [nesting_of_not_container hv, nesting_of_not_container]
          rwa [isContainer_mapFloats]
      | true =>
          refine nesting_eq_of_elements hv (by rwa [isContainer_mapFloats]) ?_
          rw [elements_mapFloats, List.forall₂_map_right_iff, List.forall₂_same]
          exact ih

theorem leafwise_mapFloats : Leafwise (mapFloats f) := ⟨mapFloats_sequence, mapFloats_mapping⟩

theorem mapFloats_eq_self_iff (v : Value) :
    v.mapFloats f = v ↔ ∀ y ∈ v.leaves, ∀ x, y = .float x → f x = x := by
  refine leafwise_mapFloats.eq_self_iff (fun y hy => ?_) v
  cases y with
  | float x => simp [mapFloats]
  | sequence xs => cases hy
  | mapping ms => cases hy
  | _ => simp [mapFloats]

/-! ## Lowering -/

theorem toItems_eq_map (xs : List Value) : toItems xs = xs.map toJson := by
  induction xs with
  | nil => rfl
  | cons x xs ih => rw [toItems, ih, List.map_cons]

theorem toMembers_eq_map (ms : List (String × Value)) :
    toMembers ms = ms.map fun m => (m.1, m.2.toJson) := by
  induction ms with
  | nil => rfl
  | cons m ms ih => rw [toMembers, ih, List.map_cons]

theorem within_toJson {v : Value} (h : v.DistinctNames) {n : Nat} (hn : v.nesting ≤ n) :
    v.toJson.Within n := by
  have hinner : ∀ {v : Value} {n : Nat}, v.isContainer = true → v.nesting ≤ n →
      ∃ k, n = k + 1 ∧ ∀ x ∈ v.elements, x.nesting ≤ k := by
    intro v n hv hn
    rw [nesting_of_container hv] at hn
    exact ⟨n - 1, by omega, nestingItems_le_iff.mp (by omega)⟩
  induction h generalizing n with
  | @scalar v leaf =>
      cases v with
      | float x =>
          rw [toJson]
          split
          · exact .number n _
          · exact .null n
      | null => exact .null n
      | bool b => exact .bool n b
      | integer i => exact .number n _
      | unsigned u => exact .number n _
      | string s => exact .string n s
      | sequence xs => cases leaf
      | mapping ms => cases leaf
  | @sequence xs items ih =>
      obtain ⟨k, rfl, hk⟩ := hinner rfl hn
      rw [toJson, toItems_eq_map]
      exact .array (List.forall_mem_map.mpr fun x hx => ih x hx (hk x hx))
  | @mapping ms names values ih =>
      obtain ⟨k, rfl, hk⟩ := hinner rfl hn
      rw [toJson, toMembers_eq_map]
      refine .object (by rwa [Members.names_map]) (List.forall_mem_map.mpr fun m hm => ?_)
      exact ih m hm (hk m.2 (List.mem_map_of_mem hm))

/-- Lowered and read again, a value has only its doubles changed. -/
theorem ofJson_reread_toJson (v : Value)
    (hfinite : ∀ y ∈ v.leaves, ∀ x, y = .float x → x.isFinite = true)
    (hlarge : v.UnsignedAreLarge) : ofJson v.toJson.reread = v.reread := by
  induction v using elements_induction with
  | step v ih =>
      cases v with
      | integer i =>
          have hlt := i.toInt_lt
          have hsmall : i.toInt < 0x8000000000000000 := by omega
          simp only [toJson, Number.ofInt64, Json.reread, Number.reread, ofJson, ofNumber,
            if_pos hsmall, Int64.ofInt_toInt]
          rfl
      | unsigned u =>
          have hmax : Int64.maxValue.toInt = 2 ^ 63 - 1 := rfl
          have hle := hlarge _ (List.mem_singleton_self _) u rfl
          have hbig : ¬ (u.toNat : Int) < 0x8000000000000000 := by omega
          simp only [toJson, Number.ofUInt64, Json.reread, Number.reread, ofJson, ofNumber,
            if_neg hbig, Int.toNat_natCast, UInt64.ofNat_toNat]
          rfl
      | float x =>
          have hx := hfinite _ (List.mem_singleton_self _) x rfl
          simp only [toJson, Number.ofDouble?, dif_pos hx, Json.reread, Number.reread, ofJson,
            ofNumber]
          rfl
      | sequence xs =>
          have hfinite' := (forall_mem_leaves_iff rfl).mp hfinite
          have hlarge' := (unsignedAreLarge_iff_elements rfl).mp hlarge
          rw [reread, mapFloats_sequence, toJson, Json.reread, ofJson, ofItems_eq_map,
            Json.rereadItems_eq_map, toItems_eq_map, List.map_map, List.map_map]
          congr 1
          exact List.map_congr_left fun x hx => ih x hx (hfinite' x hx) (hlarge' x hx)
      | mapping ms =>
          have hfinite' := (forall_mem_leaves_iff rfl).mp hfinite
          have hlarge' := (unsignedAreLarge_iff_elements rfl).mp hlarge
          rw [reread, mapFloats_mapping, toJson, Json.reread, ofJson, ofMembers_eq_map,
            Json.rereadMembers_eq_map, toMembers_eq_map, List.map_map, List.map_map]
          congr 1
          refine List.map_congr_left fun m hm => ?_
          have hmem : m.2 ∈ (Value.mapping ms).elements := List.mem_map_of_mem hm
          exact Prod.ext rfl (ih m.2 hmem (hfinite' m.2 hmem) (hlarge' m.2 hmem))
      | _ => rfl

/-! ## Decoding a text -/

theorem decode_layout {v : Value} (L : Json.Layout) (level : Nat) (hnames : v.DistinctNames)
    (hnesting : v.nesting ≤ Json.containerLimit)
    (hfinite : ∀ y ∈ v.leaves, ∀ x, y = .float x → x.isFinite = true)
    (hlarge : v.UnsignedAreLarge) :
    Value.decode (String.ofList (L.chars level v.toJson)) = .ok v.reread := by
  refine decode_eq_ok_iff.mpr ⟨v.toJson.reread, ?_, ofJson_reread_toJson v hfinite hlarge⟩
  exact L.parse (within_toJson hnames hnesting) level

theorem decode_text {v : Value} (hnames : v.DistinctNames)
    (hnesting : v.nesting ≤ Json.containerLimit)
    (hfinite : ∀ y ∈ v.leaves, ∀ x, y = .float x → x.isFinite = true)
    (hlarge : v.UnsignedAreLarge) : Value.decode v.text = .ok v.reread :=
  decode_layout Json.compactLayout 0 hnames hnesting hfinite hlarge

mutual
theorem compactChars_toJson (v : Value) : v.toJson.compactChars = v.compactChars := by
  match v with
  | .float x =>
      rw [toJson, compactChars, floatChars, Number.ofDouble?]
      split_ifs with hx
      · rfl
      · rfl
  | .sequence (x :: xs) =>
      rw [toJson, toItems, Json.compactChars, compactChars, compactChars_toJson x,
        compactRest_toItems xs]
  | .mapping ((name, v) :: ms) =>
      rw [toJson, toMembers, Json.compactChars, compactChars, compactChars_toJson v,
        compactRestMembers_toMembers ms]
  | .null | .bool _ | .integer _ | .unsigned _ | .string _ | .sequence [] | .mapping [] => rfl

theorem compactRest_toItems (xs : List Value) :
    Json.compactRest (toItems xs) = compactRest xs := by
  match xs with
  | [] => rfl
  | x :: xs =>
      rw [toItems, Json.compactRest, compactRest, compactChars_toJson x, compactRest_toItems xs]

theorem compactRestMembers_toMembers (ms : List (String × Value)) :
    Json.compactRestMembers (toMembers ms) = compactRestMembers ms := by
  match ms with
  | [] => rfl
  | (name, v) :: ms =>
      rw [toMembers, Json.compactRestMembers, compactRestMembers, compactChars_toJson v,
        compactRestMembers_toMembers ms]
end

theorem compact_eq_text (v : Value) : v.compact = v.text := by
  rw [compact, text, Json.compact, compactChars_toJson]

end Value

open Value

/-- A value without doubles decodes from its compact text and from its pretty text to
itself, if its unsigned integers lie above the signed range and it is not nested deeper
than a text may be. -/
theorem decode_written {v : Value} (hnames : v.DistinctNames)
    (hfloat : ∀ x, .float x ∉ v.leaves) (hlarge : v.UnsignedAreLarge) (hdepth : v.depth ≤ 127) :
    Value.decode v.text = .ok v ∧ Value.decode v.compact = .ok v ∧
      Value.decode v.pretty = .ok v := by
  have hnone : ∀ y ∈ v.leaves, ∀ x, y ≠ .float x := by
    rintro y hy x rfl
    exact hfloat x hy
  have hreread : v.reread = v :=
    (mapFloats_eq_self_iff v).mpr fun y hy x hx => absurd hx (hnone y hy x)
  have hdecode (L : Json.Layout) :
      Value.decode (String.ofList (L.chars 0 v.toJson)) = .ok v := by
    have hlayout := decode_layout L 0 hnames (by rwa [← depth_eq_nesting])
      (fun y hy x hx => absurd hx (hnone y hy x)) hlarge
    rwa [hreread] at hlayout
  rw [compact_eq_text]
  exact ⟨hdecode Json.compactLayout, hdecode Json.compactLayout, hdecode Json.prettyLayout⟩

theorem decode_written_bounds_and_escapes :
    let v : Value := .mapping [("", .string "\"\\/\n\u0001ß→"),
      ("é\t", .sequence [.integer Int64.minValue, .integer Int64.maxValue,
        .unsigned 0x8000000000000000, .unsigned 0xffffffffffffffff]),
      ("0", .sequence [.sequence [], .mapping [], .null, .bool false])]
    (∀ x, .float x ∉ v.leaves) ∧ v.depth = 3 ∧ Value.decode v.text = .ok v ∧
      Value.decode v.compact = .ok v ∧ Value.decode v.pretty = .ok v := by
  intro v
  have hnames : v.DistinctNames := by
    refine .mapping (by decide) ?_
    simp only [List.forall_mem_cons]
    refine ⟨.scalar rfl, .sequence ?_, .sequence ?_, by simp⟩
    · simp only [List.forall_mem_cons]
      exact ⟨.scalar rfl, .scalar rfl, .scalar rfl, .scalar rfl, by simp⟩
    · simp only [List.forall_mem_cons]
      exact ⟨.sequence (by simp), .mapping (by decide) (by simp), .scalar rfl, .scalar rfl,
        by simp⟩
  have hleaves : v.leaves = [.string "\"\\/\n\u0001ß→", .integer Int64.minValue,
      .integer Int64.maxValue, .unsigned 0x8000000000000000, .unsigned 0xffffffffffffffff,
      .null, .bool false] := rfl
  have hfloat : ∀ x, .float x ∉ v.leaves := by simp [hleaves]
  have hlarge : v.UnsignedAreLarge := by
    rintro y hy u rfl
    simp only [hleaves, List.mem_cons, reduceCtorEq, unsigned.injEq, List.not_mem_nil, or_false,
      false_or] at hy
    rcases hy with rfl | rfl <;> decide
  have hdepth : v.depth = 3 := by decide +kernel
  exact ⟨hfloat, hdepth, decode_written hnames hfloat hlarge (by rw [hdepth]; decide)⟩

end SchemaSieve
