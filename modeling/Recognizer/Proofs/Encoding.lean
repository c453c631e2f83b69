import Recognizer.Document.File

/-!
# Texts and their bytes

A text is encoded in UTF-8, and is read back from its bytes. The bytes of a source are shown as
a text that keeps those of them that are ASCII. In place of any other byte stands the
replacement character, which takes three bytes.
-/
namespace Recognizer.Bytes

/-- The bytes of characters. -/
def encode (cs : List Char) : Bytes := cs.flatMap String.utf8EncodeChar

/-- The bytes that encode a text. -/
def ofText (text : String) : Bytes := text.toUTF8.data.toList

theorem encode_cons (c : Char) (cs : List Char) :
    encode (c :: cs) = String.utf8EncodeChar c ++ encode cs := List.flatMap_cons

theorem length_encode_cons (c : Char) (cs : List Char) :
    (encode (c :: cs)).length = c.utf8Size + (encode cs).length := by
  rw [encode_cons, List.length_append, String.length_utf8EncodeChar]

theorem encode_prefix {p cs : List Char} (h : p <+: cs) : encode p <+: encode cs := by
  obtain ⟨rest, rfl⟩ := h
  exact ⟨encode rest, List.flatMap_append.symm⟩

theorem ofText_ofList (cs : List Char) : ofText (String.ofList cs) = encode cs := by
  rw [ofText, String.toUTF8_eq_toByteArray, String.toByteArray_ofList, List.utf8Encode,
    List.toList_data_toByteArray, encode]

theorem ofText_eq (text : String) : ofText text = encode text.toList := by
  rw [← ofText_ofList, String.ofList_toList]

theorem length_ofText (text : String) : (ofText text).length = text.utf8ByteSize := rfl

theorem ofText_append (s t : String) : ofText (s ++ t) = ofText s ++ ofText t := by
  simp [ofText]

/-- A text is read back from its bytes. -/
theorem text?_ofText (text : String) : text? (ofText text) = some text := by
  have hbytes : (⟨(ofText text).toArray⟩ : ByteArray) = text.toByteArray := by
    rw [ofText, Array.toArray_toList]
    rfl
  rw [text?, hbytes, String.fromUTF8?, dif_pos text.isValidUTF8]
  rfl

/-- An ASCII byte encodes the character that it denotes. -/
theorem utf8EncodeChar_of_ascii {b : UInt8} (hb : b < 0x80) :
    String.utf8EncodeChar (Char.ofNat b.toNat) = [b] := by
  have hle : b.toNat ≤ 0x7F := Nat.le_of_lt_succ (UInt8.lt_iff_toNat_lt.1 hb)
  have hvalid : b.toNat.isValidChar := .inl (Nat.lt_of_le_of_lt hle (by decide))
  have hnat : (Char.ofNat b.toNat).toNat = b.toNat := by
    rw [Char.ofNat, dif_pos hvalid]
    rfl
  simp [String.utf8EncodeChar, hnat, hle]

/-- What is shown for a byte: the byte itself if it is ASCII, and otherwise the bytes of the
replacement character. -/
def shown (b : UInt8) : Bytes := if b < 0x80 then [b] else [0xEF, 0xBF, 0xBD]

/-- Bytes are shown one by one. -/
theorem ofText_display (bytes : Bytes) : ofText bytes.display = bytes.flatMap shown := by
  rw [display, ofText_ofList]
  induction bytes with
  | nil => rfl
  | cons b bytes ih =>
    rw [List.map_cons, encode_cons, ih, List.flatMap_cons, shown]
    split
    · next hb => rw [utf8EncodeChar_of_ascii hb]
    · rfl

/-- ASCII bytes are shown as they are. -/
theorem ofText_display_of_ascii {bytes : Bytes} (h : ∀ b ∈ bytes, b < 0x80) :
    ofText bytes.display = bytes := by
  rw [ofText_display]
  induction bytes with
  | nil => rfl
  | cons b bytes ih =>
    obtain ⟨hb, hbytes⟩ := List.forall_mem_cons.1 h
    rw [List.flatMap_cons, ih hbytes, shown, if_pos hb]
    rfl

end Recognizer.Bytes
