import IrohSync.Lib.FileIo

/-!
# Text and its bytes

A string is stored as the UTF-8 encoding of its characters.  The characters below
128 are stored as one byte each.

Main results:

- Theorem {lit}`asBytes_ofList`: the bytes of a string are those of its
  characters.
- Theorem {lit}`fromUtf8_asBytes`: a string is read back from its bytes.
- Theorem {lit}`asBytes_asString`: bytes below 128 that are read as characters
  are stored as themselves.
-/

namespace Text

open FileIo

/-- The UTF-8 encoding of characters. -/
def utf8 (chars : List Char) : Bytes :=
  chars.flatMap String.utf8EncodeChar

/-- The bytes of a string. -/
def asBytes (s : String) : Bytes :=
  s.toByteArray.data.toList

/-- The string whose characters are bytes. -/
def asString (bytes : Bytes) : String :=
  String.ofList (bytes.map Char.ofUInt8)

@[simp]
theorem utf8_nil : utf8 [] = [] :=
  rfl

@[simp]
theorem utf8_append (front back : List Char) : utf8 (front ++ back) = utf8 front ++ utf8 back :=
  List.flatMap_append

@[simp]
theorem utf8_cons (c : Char) (chars : List Char) :
    utf8 (c :: chars) = String.utf8EncodeChar c ++ utf8 chars :=
  List.flatMap_cons

/-- The bytes of a string are those of its characters. -/
theorem asBytes_ofList (chars : List Char) : asBytes (String.ofList chars) = utf8 chars := by
  rw [asBytes, String.toByteArray_ofList]
  exact List.toList_data_toByteArray

/-- Strings with the same bytes are the same. -/
theorem asBytes_inj {s t : String} : asBytes s = asBytes t ↔ s = t := by
  refine ⟨fun heq => ?_, congrArg asBytes⟩
  exact String.toByteArray_inj.mp (ByteArray.ext (Array.toList_inj.mp heq))

/-- The string that bytes encode, if they encode one. -/
def fromUtf8 (bytes : Bytes) : Option String :=
  String.fromUTF8? ⟨bytes.toArray⟩

/-- The bytes of a string encode this string. -/
theorem fromUtf8_asBytes (s : String) : fromUtf8 (asBytes s) = some s := by
  have hbytes : (⟨(asBytes s).toArray⟩ : ByteArray) = s.toByteArray := by
    rw [asBytes, Array.toArray_toList]
  rw [fromUtf8, hbytes]
  exact dif_pos s.isValidUTF8

/-- A character below 128 takes one byte. -/
theorem utf8Size_of_lt {c : Char} (hc : c.toNat < 128) : c.utf8Size = 1 := by
  have hle : c.val ≤ 127 := UInt32.le_iff_toNat_le.mpr (Nat.le_of_lt_succ hc)
  exact Char.utf8Size_eq_one_iff.mpr hle

/-- A byte below 128 is stored as itself. -/
theorem utf8EncodeChar_ofUInt8 {b : UInt8} (hb : b < 128) :
    String.utf8EncodeChar (Char.ofUInt8 b) = [b] := by
  have hval : (Char.ofUInt8 b).val = b.toUInt32 := rfl
  have hlt : (Char.ofUInt8 b).toNat < 128 := UInt8.lt_iff_toNat_lt.mp hb
  rw [String.utf8EncodeChar_eq_singleton (utf8Size_of_lt hlt), hval, UInt8.toUInt8_toUInt32]

/-- Bytes below 128 that are read as characters are stored as themselves. -/
theorem asBytes_asString {bytes : Bytes} (hascii : ∀ b ∈ bytes, b < 128) :
    asBytes (asString bytes) = bytes := by
  rw [asString, asBytes_ofList]
  induction bytes with
  | nil => rfl
  | cons b bytes ih =>
      rw [List.map_cons, utf8_cons, utf8EncodeChar_ofUInt8 (hascii b List.mem_cons_self),
        ih fun b hb => hascii b (List.mem_cons_of_mem _ hb)]
      rfl

end Text
