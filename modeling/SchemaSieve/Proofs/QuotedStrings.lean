import Mathlib.Data.List.Basic
import SchemaSieve.Json.Quoted
import SchemaSieve.Proofs.Readers

/-!
# Quoted strings are read back

A text is read as the UTF-8 bytes of its characters.  Escapes are ASCII, and every byte
of another character from U+0080 on is above all of ASCII, so the bytes of a quoted
string are read one character at a time, up to the quote that closes it.
-/

namespace SchemaSieve

/-! ## Texts as bytes -/

def encode (cs : List Char) : Bytes := cs.flatMap String.utf8EncodeChar

@[simp] theorem encode_nil : encode [] = [] := rfl

@[simp] theorem encode_append (cs ds : List Char) : encode (cs ++ ds) = encode cs ++ encode ds :=
  List.flatMap_append

theorem encode_cons (c : Char) (cs : List Char) :
    encode (c :: cs) = String.utf8EncodeChar c ++ encode cs :=
  List.flatMap_cons

theorem bytesOf_ofList (cs : List Char) : bytesOf (String.ofList cs) = encode cs := by
  rw [bytesOf, String.toUTF8_eq_toByteArray, String.toByteArray_ofList, List.utf8Encode,
    List.toList_data_toByteArray, encode]

theorem textOf?_encode (s : String) : textOf? (encode s.toList) = some s := by
  have hbytes : (⟨(encode s.toList).toArray⟩ : ByteArray) = s.toByteArray := by
    rw [← String.utf8Encode_toList, List.utf8Encode, ← encode]
    exact ByteArray.ext List.data_toByteArray.symm
  rw [textOf?, hbytes, String.fromUTF8?, dif_pos s.isValidUTF8]
  rfl

theorem toNat_byte {c : Char} (h : c.toNat < 128) : (Json.byte c).toNat = c.toNat := by
  have hmod : (Json.byte c).toNat = c.toNat % 256 := rfl
  omega

theorem eq_of_byte_eq {c d : Char} (hc : c.toNat < 128) (hd : d.toNat < 128)
    (h : Json.byte c = Json.byte d) : c = d := by
  have hnat : c.toNat = d.toNat := by rw [← toNat_byte hc, ← toNat_byte hd, h]
  rw [← Char.ofNat_toNat c, hnat, Char.ofNat_toNat]

theorem utf8EncodeChar_of_ascii {c : Char} (h : c.toNat < 128) :
    String.utf8EncodeChar c = [Json.byte c] := by
  have hle : c.val.toNat ≤ 127 := Nat.le_of_lt_succ h
  simp only [String.utf8EncodeChar, if_pos hle]
  rfl

theorem encode_ascii_cons {c : Char} (cs : List Char) (h : c.toNat < 128) :
    encode (c :: cs) = Json.byte c :: encode cs := by
  rw [encode_cons, utf8EncodeChar_of_ascii h, List.singleton_append]

theorem encode_of_ascii {cs : List Char} (h : ∀ c ∈ cs, c.toNat < 128) :
    encode cs = cs.map Json.byte := by
  induction cs with
  | nil => rfl
  | cons c cs ih =>
      rw [List.forall_mem_cons] at h
      rw [encode_ascii_cons cs h.1, ih h.2, List.map_cons]

theorem le_of_mem_utf8EncodeChar {c : Char} (h : 128 ≤ c.toNat) {b : UInt8}
    (hb : b ∈ String.utf8EncodeChar c) : 0x80 ≤ b.toNat := by
  have hgt : ¬ c.val.toNat ≤ 127 := Nat.not_le_of_lt h
  simp only [String.utf8EncodeChar, if_neg hgt] at hb
  split at hb
  · simp only [List.mem_cons, List.not_mem_nil, or_false] at hb
    rcases hb with rfl | rfl <;> simp only [UInt8.toNat_ofNat'] <;> omega
  · split at hb
    · simp only [List.mem_cons, List.not_mem_nil, or_false] at hb
      rcases hb with rfl | rfl | rfl <;> simp only [UInt8.toNat_ofNat'] <;> omega
    · simp only [List.mem_cons, List.not_mem_nil, or_false] at hb
      rcases hb with rfl | rfl | rfl | rfl <;> simp only [UInt8.toNat_ofNat'] <;> omega

namespace Json.Reader

variable {s t rest bs : Bytes} {b : UInt8}

/-! ## The bytes of a string -/

theorem reads_stringBytes_close : Reads stringBytes (byte '"' :: rest) [] rest := by
  unfold Reads
  rw [stringBytes, if_pos rfl]
  exact ⟨Nat.le_succ _, rfl⟩

theorem reads_stringBytes_plain (hquote : b ≠ byte '"') (hslash : b ≠ byte '\\')
    (hcontrol : ¬ b < 0x20) (h : Reads stringBytes s bs rest) :
    Reads stringBytes (b :: s) (b :: bs) rest := by
  obtain ⟨hle, hs⟩ := h
  unfold Reads
  rw [stringBytes, if_neg hquote, if_neg hslash, if_neg hcontrol]
  simp only [hs]
  exact ⟨Nat.le_succ_of_le hle, trivial⟩

theorem reads_stringBytes_escape {c : Bytes} (hc : Reads escaped s c t)
    (h : Reads stringBytes t bs rest) :
    Reads stringBytes (byte '\\' :: s) (c ++ bs) rest := by
  obtain ⟨hle, hs⟩ := hc
  obtain ⟨hle', ht⟩ := h
  unfold Reads
  rw [stringBytes, if_neg (by decide), if_pos rfl, hs]
  simp only [ht]
  exact ⟨by simp only [List.length_cons]; omega, trivial⟩

/-! ## Escapes -/

theorem reads_escaped_letter {c : UInt8} (hb : b ≠ byte 'u') (hc : escapedByte? b = some c) :
    Reads escaped (b :: t) [c] t := by
  rw [escaped, reads_next_bind]
  simp [hb, hc]

theorem hexValue?_hexDigit {d : Nat} (h : d < 16) :
    hexValue? (byte (Quoted.hexDigit d)) = some d := by
  have hall : ∀ d < 16, hexValue? (byte (Quoted.hexDigit d)) = some d := by decide
  exact hall d h

theorem reads_codeUnit {k : Nat} (h : k < 0x20) :
    Reads codeUnit (byte '0' :: byte '0' :: byte (Quoted.hexDigit (k / 16)) ::
      byte (Quoted.hexDigit (k % 16)) :: t) k t := by
  have hzero : hexValue? (byte '0') = some 0 := by decide
  have hhigh := hexValue?_hexDigit (d := k / 16) (by omega)
  have hlow := hexValue?_hexDigit (d := k % 16) (by omega)
  have hsum : ((0 * 16 + 0) * 16 + k / 16) * 16 + k % 16 = k := by omega
  refine ⟨by simp only [List.length_cons]; omega, ?_⟩
  simp only [codeUnit, hzero, hhigh, hlow, hsum]

theorem reads_escaped_control {c : Char} (h : c.toNat < 0x20) :
    Reads escaped (byte 'u' :: byte '0' :: byte '0' :: byte (Quoted.hexDigit (c.toNat / 16)) ::
      byte (Quoted.hexDigit (c.toNat % 16)) :: t) (String.utf8EncodeChar c) t := by
  rw [escaped, reads_next_bind]
  simp only [List.head?_cons, List.tail_cons, if_true]
  have hunit := reads_codeUnit (t := t) h
  rw [reads_bind]
  refine ⟨c.toNat, t, ?_, ?_⟩
  · rw [codePoint, reads_bind]
    refine ⟨_, _, hunit, ?_⟩
    rw [if_neg (by omega), if_pos (by omega), reads_pure]
    exact ⟨rfl, rfl⟩
  · rw [reads_pure, Char.ofNat_toNat]
    exact ⟨rfl, rfl⟩

theorem reads_stringBytes_letter {letter : Char} {c : UInt8} (hb : byte letter ≠ byte 'u')
    (hc : escapedByte? (byte letter) = some c) (hascii : letter.toNat < 128)
    (h : Reads stringBytes s bs rest) :
    Reads stringBytes (encode ['\\', letter] ++ s) (c :: bs) rest := by
  have hbytes : encode ['\\', letter] = [byte '\\', byte letter] := by
    simp [encode_cons, utf8EncodeChar_of_ascii hascii, utf8EncodeChar_of_ascii (c := '\\')]
  rw [hbytes]
  exact reads_stringBytes_escape (reads_escaped_letter hb hc) h

theorem reads_stringBytes_control {c : Char} (hc : c.toNat < 0x20)
    (h : Reads stringBytes s bs rest) :
    Reads stringBytes (encode ['\\', 'u', '0', '0', Quoted.hexDigit (c.toNat / 16),
      Quoted.hexDigit (c.toNat % 16)] ++ s) (String.utf8EncodeChar c ++ bs) rest := by
  have hdigit : ∀ d < 16, (Quoted.hexDigit d).toNat < 128 := by decide
  rw [encode_of_ascii]
  · exact reads_stringBytes_escape (reads_escaped_control hc) h
  · simp [hdigit (c.toNat / 16) (by omega), hdigit (c.toNat % 16) (by omega)]

theorem reads_stringBytes_append {cs : Bytes}
    (hplain : ∀ b ∈ cs, b ≠ byte '"' ∧ b ≠ byte '\\' ∧ ¬ b < 0x20)
    (h : Reads stringBytes s bs rest) : Reads stringBytes (cs ++ s) (cs ++ bs) rest := by
  induction cs with
  | nil => exact h
  | cons b cs ih =>
      obtain ⟨⟨hquote, hslash, hcontrol⟩, hcs⟩ := List.forall_mem_cons.mp hplain
      exact reads_stringBytes_plain hquote hslash hcontrol (ih hcs)

theorem plain_of_mem_utf8EncodeChar {c : Char} (hquote : c ≠ '"') (hslash : c ≠ '\\')
    (hcontrol : ¬ c.toNat < 0x20) :
    ∀ b ∈ String.utf8EncodeChar c, b ≠ byte '"' ∧ b ≠ byte '\\' ∧ ¬ b < 0x20 := by
  intro b hb
  rcases Nat.lt_or_ge c.toNat 128 with hascii | hwide
  · rw [utf8EncodeChar_of_ascii hascii, List.mem_singleton] at hb
    rw [hb]
    refine ⟨fun h => hquote (eq_of_byte_eq hascii (by decide) h),
      fun h => hslash (eq_of_byte_eq hascii (by decide) h), ?_⟩
    rw [UInt8.lt_iff_toNat_lt, toNat_byte hascii]
    exact hcontrol
  · have hle := le_of_mem_utf8EncodeChar hwide hb
    refine ⟨?_, ?_, ?_⟩
    · rintro rfl
      exact absurd hle (by decide)
    · rintro rfl
      exact absurd hle (by decide)
    · rw [UInt8.lt_iff_toNat_lt]
      exact Nat.not_lt_of_le (Nat.le_trans (by decide) hle)

theorem reads_stringBytes_char (c : Char) (h : Reads stringBytes s bs rest) :
    Reads stringBytes (encode (Quoted.escape c) ++ s) (String.utf8EncodeChar c ++ bs) rest := by
  unfold Quoted.escape
  split
  · exact reads_stringBytes_letter (by decide) (by decide) (by decide) h
  · exact reads_stringBytes_letter (by decide) (by decide) (by decide) h
  · exact reads_stringBytes_letter (by decide) (by decide) (by decide) h
  · exact reads_stringBytes_letter (by decide) (by decide) (by decide) h
  · exact reads_stringBytes_letter (by decide) (by decide) (by decide) h
  · exact reads_stringBytes_letter (by decide) (by decide) (by decide) h
  · exact reads_stringBytes_letter (by decide) (by decide) (by decide) h
  · rename_i hquote hslash _ _ _ _ _
    split
    · rename_i hcontrol
      exact reads_stringBytes_control hcontrol h
    · rename_i hcontrol
      rw [encode_cons, encode_nil, List.append_nil]
      exact reads_stringBytes_append (plain_of_mem_utf8EncodeChar hquote hslash hcontrol) h

theorem reads_stringBytes (cs : List Char) (rest : Bytes) :
    Reads stringBytes (encode (cs.flatMap Quoted.escape) ++ byte '"' :: rest) (encode cs) rest := by
  induction cs with
  | nil => exact reads_stringBytes_close
  | cons c cs ih =>
      rw [List.flatMap_cons, encode_append, encode_cons, List.append_assoc]
      exact reads_stringBytes_char c ih

theorem reads_string (s : String) (rest : Bytes) :
    Reads string (encode (s.toList.flatMap Quoted.escape) ++ byte '"' :: rest) s rest := by
  obtain ⟨hle, hbytes⟩ := reads_stringBytes s.toList rest
  refine ⟨hle, ?_⟩
  simp only [string, hbytes, textOf?_encode]

theorem encode_quoted (s : String) :
    encode (Quoted.chars s) =
      byte '"' :: (encode (s.toList.flatMap Quoted.escape) ++ [byte '"']) := by
  have hquote : String.utf8EncodeChar '"' = [byte '"'] := utf8EncodeChar_of_ascii (by decide)
  simp [Quoted.chars, encode_cons, hquote]

end Json.Reader

end SchemaSieve
