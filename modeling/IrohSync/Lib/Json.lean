import Mathlib.Data.Nat.Digits.Defs
import Mathlib.Algebra.Order.Ring.Nat
import Mathlib.Data.List.Basic
import IrohSync.Lib.Text

/-!
# Compact JSON text

JSON values and their text without white space.  The size of a text is counted in
bytes of its UTF-8 encoding.

Main results:

- Theorems {lit}`size_arr` and {lit}`size_obj`: the size of a collection is the
  sum of its parts, their separators and the brackets.
- Theorem {lit}`le_size_ofBytes`: an array of byte values takes at least two bytes
  for each of them.
-/

namespace Json

open FileIo Text

/-- A JSON value; numbers are natural. -/
inductive Value where
  | null
  | bool (b : Bool)
  | num (n : Nat)
  | str (s : String)
  | arr (items : List Value)
  | obj (fields : List (String × Value))

/-! ## Text -/

/-- A lower-case hexadecimal digit. -/
def hexDigit (n : Nat) : Char :=
  Nat.digitChar (n % 16)

/-- A character inside a string: quotes, backslashes and control characters are
escaped. -/
def escape (c : Char) : List Char :=
  match c.toNat with
  | 0x22 => ['\x5c', '\x22']
  | 0x5c => ['\x5c', '\x5c']
  | 0x08 => ['\x5c', 'b']
  | 0x09 => ['\x5c', 't']
  | 0x0a => ['\x5c', 'n']
  | 0x0c => ['\x5c', 'f']
  | 0x0d => ['\x5c', 'r']
  | n => if n < 0x20 then ['\x5c', 'u', '0', '0', hexDigit (n / 16), hexDigit n] else [c]

/-- A string in quotes. -/
def quote (s : String) : List Char :=
  '\x22' :: (s.toList.flatMap escape ++ ['\x22'])

/-- Parts with commas between them. -/
def commaSep : List (List Char) → List Char
  | [] => []
  | [part] => part
  | part :: next :: rest => part ++ ',' :: commaSep (next :: rest)

mutual

/-- The text of a value. -/
def Value.print : Value → List Char
  | .null => ['n', 'u', 'l', 'l']
  | .bool true => ['t', 'r', 'u', 'e']
  | .bool false => ['f', 'a', 'l', 's', 'e']
  | .num n => Nat.toDigits 10 n
  | .str s => quote s
  | .arr items => '[' :: (commaSep (printItems items) ++ [']'])
  | .obj fields => '\x7b' :: (commaSep (printFields fields) ++ ['\x7d'])

/-- The texts of the items of an array. -/
def printItems : List Value → List (List Char)
  | [] => []
  | v :: items => v.print :: printItems items

/-- The texts of the fields of an object. -/
def printFields : List (String × Value) → List (List Char)
  | [] => []
  | (name, v) :: fields => (quote name ++ ':' :: v.print) :: printFields fields

end

/-- The bytes of a value. -/
def Value.bytes (v : Value) : Bytes :=
  utf8 v.print

/-- The number of bytes of a value. -/
def Value.size (v : Value) : Nat :=
  v.bytes.length

/-! ## Sizes -/

theorem printItems_eq (items : List Value) : printItems items = items.map Value.print := by
  induction items with
  | nil => rfl
  | cons v items ih => rw [printItems, ih, List.map_cons]

theorem printFields_eq (fields : List (String × Value)) :
    printFields fields = fields.map fun field => quote field.1 ++ ':' :: field.2.print := by
  induction fields with
  | nil => rfl
  | cons field fields ih => rw [printFields, ih, List.map_cons]

/-- The size of separated parts. -/
theorem utf8_commaSep_length (parts : List (List Char)) :
    (utf8 (commaSep parts)).length =
      (parts.map fun part => (utf8 part).length).sum + (parts.length - 1) := by
  induction parts with
  | nil => rfl
  | cons part rest ih =>
      cases rest with
      | nil => simp [commaSep]
      | cons next rest =>
          rw [commaSep, utf8_append, utf8_cons, List.length_append, List.length_append, ih]
          simp only [List.map_cons, List.sum_cons, List.length_cons,
            String.length_utf8EncodeChar, utf8Size_of_lt (show ','.toNat < 128 by decide)]
          omega

/-- The size of a text in brackets. -/
theorem utf8_brackets_length (left right : Char) (hleft : left.toNat < 128)
    (hright : right.toNat < 128) (chars : List Char) :
    (utf8 (left :: (chars ++ [right]))).length = 2 + (utf8 chars).length := by
  simp only [utf8_cons, utf8_append, utf8_nil, List.length_append, List.length_nil,
    String.length_utf8EncodeChar, utf8Size_of_lt hleft, utf8Size_of_lt hright]
  omega

/-- The size of an array. -/
theorem size_arr (items : List Value) :
    (Value.arr items).size = 2 + (items.map Value.size).sum + (items.length - 1) := by
  have hbrackets := utf8_brackets_length '[' ']' (by decide) (by decide)
  rw [Value.size, Value.bytes, Value.print, hbrackets, utf8_commaSep_length, printItems_eq,
    List.map_map, List.length_map, Nat.add_assoc]
  rfl

/-- The size of one field of an object. -/
def fieldSize (field : String × Value) : Nat :=
  (utf8 (quote field.1)).length + 1 + field.2.size

/-- The size of an object. -/
theorem size_obj (fields : List (String × Value)) :
    (Value.obj fields).size = 2 + (fields.map fieldSize).sum + (fields.length - 1) := by
  have hbrackets := utf8_brackets_length '\x7b' '\x7d' (by decide) (by decide)
  have hfield : ∀ field : String × Value,
      (utf8 (quote field.1 ++ ':' :: field.2.print)).length = fieldSize field := by
    intro field
    simp only [utf8_append, utf8_cons, List.length_append, String.length_utf8EncodeChar,
      utf8Size_of_lt (show ':'.toNat < 128 by decide), fieldSize, Value.size, Value.bytes]
    omega
  rw [Value.size, Value.bytes, Value.print, hbrackets, utf8_commaSep_length, printFields_eq,
    List.map_map, List.length_map, Nat.add_assoc]
  simp only [Function.comp_def, hfield]

/-- Every character takes at least one byte. -/
theorem length_le_utf8 (chars : List Char) : chars.length ≤ (utf8 chars).length := by
  induction chars with
  | nil => exact Nat.le_refl 0
  | cons c chars ih =>
      have hpos := c.utf8Size_pos
      rw [utf8_cons, List.length_append, String.length_utf8EncodeChar, List.length_cons]
      omega

/-- Every character takes at most four bytes. -/
theorem utf8_le_length (chars : List Char) : (utf8 chars).length ≤ 4 * chars.length := by
  induction chars with
  | nil => exact Nat.le_refl 0
  | cons c chars ih =>
      have hfour := c.utf8Size_le_four
      rw [utf8_cons, List.length_append, String.length_utf8EncodeChar, List.length_cons]
      omega

theorem size_num_pos (n : Nat) : 0 < (Value.num n).size :=
  Nat.lt_of_lt_of_le Nat.length_toDigits_pos (length_le_utf8 _)

/-- A 64-bit number takes at most 80 bytes. -/
theorem size_num_le {n : Nat} (hn : n < 2 ^ 64) : (Value.num n).size ≤ 80 := by
  have hdigits : (Value.num n).print.length ≤ 20 :=
    Nat.toDigits_length 10 n 20 (by decide) (Nat.lt_trans hn (by decide))
  exact (utf8_le_length _).trans (by omega)

/-- Byte values are written as an array of numbers. -/
def ofBytes (bytes : Bytes) : Value :=
  .arr (bytes.map fun b => .num b.toNat)

/-- An array of byte values takes at least two bytes for each of them. -/
theorem le_size_ofBytes (bytes : Bytes) : 2 * bytes.length ≤ (ofBytes bytes).size := by
  have hsum : bytes.length ≤ (bytes.map fun b => (Value.num b.toNat).size).sum := by
    induction bytes with
    | nil => exact Nat.le_refl 0
    | cons b bytes ih =>
        have hpos := size_num_pos b.toNat
        rw [List.map_cons, List.sum_cons, List.length_cons]
        omega
  rw [ofBytes, size_arr, List.map_map, List.length_map]
  simp only [Function.comp_def]
  omega

end Json
