import Mathlib.Data.List.TakeWhile
import IrohSync.Lib.Json

/-!
# Reading compact JSON text

A reader of the texts that values are printed as.  It goes down into arrays and objects with
a bound on the number of steps, for which the length of the text is enough.

Main results:

- Theorem {lit}`readList_commaSep`: parts that are read one by one are read from the list of
  them.
- Theorem {lit}`read_print`: the text of a value is read as this value.
-/

namespace Json

/-! ## The reader -/

/-- The number that a hexadecimal digit stands for. -/
def hexValue (c : Char) : Nat :=
  if c.isDigit then c.toNat - '0'.toNat else c.toNat - 'a'.toNat + 10

/-- The character that a letter behind a backslash stands for. -/
def unescape : Char → Option Char
  | '\x22' => some '\x22'
  | '\x5c' => some '\x5c'
  | '/' => some '/'
  | 'b' => some (Char.ofNat 0x08)
  | 't' => some '\x09'
  | 'n' => some '\x0a'
  | 'f' => some (Char.ofNat 0x0c)
  | 'r' => some '\x0d'
  | _ => none

/-- One more character in front of what was read. -/
def push (c : Char) (result : Option (List Char × List Char)) :
    Option (List Char × List Char) :=
  result.map fun (chars, rest) => (c :: chars, rest)

/-- Read up to the end of a string: its characters, and what is left. -/
def readChars : List Char → Option (List Char × List Char)
  | [] => none
  | '\x22' :: rest => some ([], rest)
  | '\x5c' :: 'u' :: '0' :: '0' :: a :: b :: rest =>
      push (Char.ofNat (16 * hexValue a + hexValue b)) (readChars rest)
  | '\x5c' :: c :: rest => (unescape c).bind fun c => push c (readChars rest)
  | c :: rest => push c (readChars rest)

/-- Read one of the three words. -/
def readWord : List Char → Option (Value × List Char)
  | 'n' :: 'u' :: 'l' :: 'l' :: rest => some (.null, rest)
  | 't' :: 'r' :: 'u' :: 'e' :: rest => some (.bool true, rest)
  | 'f' :: 'a' :: 'l' :: 's' :: 'e' :: rest => some (.bool false, rest)
  | _ => none

/-- Read the digits of a number. -/
def readNat (chars : List Char) : Value × List Char :=
  (.num (Nat.ofDigitChars 10 (chars.takeWhile Char.isDigit) 0), chars.dropWhile Char.isDigit)

section Lists

variable {α : Type} (read : List Char → Option (α × List Char)) (close : Char)

/-- Read parts with commas between them, up to a closing bracket. -/
def readParts : Nat → List Char → Option (List α × List Char)
  | 0, _ => none
  | n + 1, chars =>
      match read chars with
      | none => none
      | some (_, []) => none
      | some (part, c :: rest) =>
          if c = close then some ([part], rest)
          else if c = ',' then (readParts n rest).map fun (parts, rest) => (part :: parts, rest)
          else none

/-- Read parts in brackets; there may be none. -/
def readList (n : Nat) : List Char → Option (List α × List Char)
  | [] => none
  | c :: rest => if c = close then some ([], rest) else readParts read close n (c :: rest)

end Lists

/-- Read a field of an object. -/
def readField (read : List Char → Option (Value × List Char)) :
    List Char → Option ((String × Value) × List Char)
  | '\x22' :: rest =>
      match readChars rest with
      | some (name, ':' :: rest) => (read rest).map fun (v, rest) => ((.ofList name, v), rest)
      | _ => none
  | _ => none

/-- Read a value. -/
def readValue : Nat → List Char → Option (Value × List Char)
  | 0, _ => none
  | _ + 1, [] => none
  | n + 1, c :: rest =>
      if c = '\x22' then (readChars rest).map fun (chars, rest) => (.str (.ofList chars), rest)
      else if c = '[' then
        (readList (readValue n) ']' n rest).map fun (items, rest) => (.arr items, rest)
      else if c = '\x7b' then
        (readList (readField (readValue n)) '\x7d' n rest).map fun (fields, rest) =>
          (.obj fields, rest)
      else if c.isDigit then some (readNat (c :: rest))
      else readWord (c :: rest)

/-- Read a text that is one value. -/
def read (chars : List Char) : Option Value :=
  match readValue chars.length chars with
  | some (v, []) => some v
  | _ => none

/-! ## Strings and numbers -/

theorem hexValue_hexDigit : ∀ n < 16, hexValue (hexDigit n) = n := by
  decide

/-- Two hexadecimal digits are read as the number that they were written for. -/
theorem hexValue_digits {n : Nat} (hlt : n < 256) :
    16 * hexValue (hexDigit (n / 16)) + hexValue (hexDigit n) = n := by
  have hhigh := hexValue_hexDigit (n / 16) (by omega)
  have hlow := hexValue_hexDigit (n % 16) (Nat.mod_lt _ (by decide))
  have hdigit : hexDigit n = hexDigit (n % 16) := by
    rw [hexDigit, hexDigit, Nat.mod_mod]
  rw [hhigh, hdigit, hlow]
  exact Nat.div_add_mod n 16

theorem readChars_cons {c : Char} (hquote : c ≠ '\x22') (hbackslash : c ≠ '\x5c')
    (rest : List Char) : readChars (c :: rest) = push c (readChars rest) := by
  rw [readChars.eq_def]
  split
  case h_1 heq => exact absurd heq (List.cons_ne_nil _ _)
  case h_2 heq => exact absurd (List.cons.inj heq).1 hquote
  case h_3 heq => exact absurd (List.cons.inj heq).1 hbackslash
  case h_4 heq => exact absurd (List.cons.inj heq).1 hbackslash
  case h_5 heq =>
    rw [(List.cons.inj heq).1, (List.cons.inj heq).2]

/-- An escaped character is read as this character. -/
theorem readChars_escape (c : Char) (rest : List Char) :
    readChars (escape c ++ rest) = push c (readChars rest) := by
  have hchar : ∀ {n : Nat}, c.toNat = n → c = Char.ofNat n := by
    intro n hn
    rw [← hn, Char.ofNat_toNat]
  unfold escape
  split
  case h_8 hquote hbackslash _ _ _ _ _ =>
    split
    · next hlt =>
        simp only [List.cons_append, List.nil_append, readChars]
        rw [hexValue_digits (by omega), Char.ofNat_toNat]
    · exact readChars_cons (fun heq => hquote (congrArg Char.toNat heq))
        (fun heq => hbackslash (congrArg Char.toNat heq)) rest
  all_goals
    next h =>
      rw [hchar h]
      rfl

/-- The characters of a string in quotes. -/
theorem readChars_quote (s : String) (rest : List Char) :
    readChars (s.toList.flatMap escape ++ '\x22' :: rest) = some (s.toList, rest) := by
  induction s.toList with
  | nil => rfl
  | cons c chars ih =>
      rw [List.flatMap_cons, List.append_assoc, readChars_escape, ih]
      rfl

/-- No digit follows. -/
def EndsNumber (rest : List Char) : Prop :=
  ∀ c ∈ rest.head?, c.isDigit = false

/-- The digits of a number that no digit follows. -/
theorem readNat_toDigits (n : Nat) {rest : List Char} (hrest : EndsNumber rest) :
    readNat (Nat.toDigits 10 n ++ rest) = (.num n, rest) := by
  have hdigits : ∀ c ∈ Nat.toDigits 10 n, c.isDigit = true := fun c hc =>
    Nat.isDigit_of_mem_toDigits (by decide) (by decide) hc
  have hnone : rest.takeWhile Char.isDigit = [] ∧ rest.dropWhile Char.isDigit = rest := by
    cases rest with
    | nil => exact ⟨rfl, rfl⟩
    | cons c rest =>
        have hc : c.isDigit = false := hrest c rfl
        simp [hc]
  rw [readNat, List.takeWhile_append_of_pos hdigits, List.dropWhile_append_of_pos hdigits,
    hnone.1, hnone.2, List.append_nil, Nat.ofDigitChars_ten_toDigits]

/-! ## Lists -/

section Lists

variable {α : Type} {read : List Char → Option (α × List Char)} {print : α → List Char}
  {close : Char}

/-- Parts that are read one by one are read from the list of them. -/
theorem readParts_commaSep {part : α} {parts : List α} {n : Nat} (hn : parts.length < n)
    (hcomma : close ≠ ',') (hclose : close.isDigit = false) (rest : List Char)
    (hread : ∀ p ∈ part :: parts, ∀ rest, EndsNumber rest →
      read (print p ++ rest) = some (p, rest)) :
    readParts read close n (commaSep ((part :: parts).map print) ++ close :: rest) =
      some (part :: parts, rest) := by
  induction parts generalizing part n with
  | nil =>
      cases n with
      | zero => contradiction
      | succ n =>
          have hpart := hread part List.mem_cons_self (close :: rest)
            (fun c hc => by rwa [← Option.some.inj hc])
          simp [readParts, commaSep, hpart]
  | cons next parts ih =>
      cases n with
      | zero => contradiction
      | succ n =>
          have hnext : readParts read close n
              (commaSep ((next :: parts).map print) ++ close :: rest) =
                some (next :: parts, rest) :=
            ih (Nat.lt_of_succ_lt_succ hn) fun p hp => hread p (List.mem_cons_of_mem _ hp)
          have hpart := hread part List.mem_cons_self
            (',' :: (commaSep ((next :: parts).map print) ++ close :: rest))
            (fun c hc => by rw [← Option.some.inj hc]; rfl)
          rw [List.map_cons, List.map_cons, commaSep, List.append_assoc, List.cons_append,
            ← List.map_cons, readParts, hpart]
          simp only [if_neg hcomma.symm, if_true, hnext]
          rfl

/-- The list may be empty, if no part begins as the list ends. -/
theorem readList_commaSep {parts : List α} {n : Nat} (hn : parts.length ≤ n)
    (hcomma : close ≠ ',') (hclose : close.isDigit = false) (rest : List Char)
    (hread : ∀ p ∈ parts, ∀ rest, EndsNumber rest → read (print p ++ rest) = some (p, rest))
    (hhead : ∀ p ∈ parts, ∃ c chars, print p = c :: chars ∧ c ≠ close) :
    readList read close n (commaSep (parts.map print) ++ close :: rest) = some (parts, rest) := by
  cases parts with
  | nil => simp [readList, commaSep]
  | cons part parts =>
      have hparts := readParts_commaSep hn hcomma hclose rest hread
      have hbegins : ∃ c chars,
          commaSep ((part :: parts).map print) ++ close :: rest = c :: chars ∧ c ≠ close := by
        rcases hhead part List.mem_cons_self with ⟨c, chars, hprint, hne⟩
        cases parts with
        | nil => exact ⟨c, chars ++ close :: rest, by simp [commaSep, hprint], hne⟩
        | cons next parts =>
            exact ⟨c, chars ++ ',' :: (commaSep ((next :: parts).map print) ++ close :: rest),
              by simp [commaSep, hprint], hne⟩
      rcases hbegins with ⟨c, chars, hchars, hne⟩
      rw [hchars] at hparts ⊢
      rw [readList, if_neg hne, hparts]

end Lists

/-! ## Values -/

/-- A number begins with a digit. -/
theorem isDigit_of_toDigits {n : Nat} {c : Char} {chars : List Char}
    (hdigits : Nat.toDigits 10 n = c :: chars) : c.isDigit = true :=
  Nat.isDigit_of_mem_toDigits (by decide) (by decide) (hdigits ▸ List.mem_cons_self)

/-- No value begins with a bracket that closes an array. -/
theorem print_eq_cons (v : Value) : ∃ c chars, v.print = c :: chars ∧ c ≠ ']' := by
  cases v with
  | null => exact ⟨_, _, rfl, by decide⟩
  | bool b =>
      cases b with
      | true => exact ⟨_, _, rfl, by decide⟩
      | false => exact ⟨_, _, rfl, by decide⟩
  | num n =>
      cases hdigits : Nat.toDigits 10 n with
      | nil => exact absurd hdigits Nat.toDigits_ne_nil
      | cons c chars =>
          refine ⟨c, chars, hdigits, fun heq => ?_⟩
          have hdigit := isDigit_of_toDigits hdigits
          rw [heq] at hdigit
          contradiction
  | str s => exact ⟨_, _, rfl, by decide⟩
  | arr items => exact ⟨_, _, rfl, by decide⟩
  | obj fields => exact ⟨_, _, rfl, by decide⟩

/-- The parts of a list are not longer than the list. -/
theorem length_le_commaSep {part : List Char} {parts : List (List Char)} (hpart : part ∈ parts) :
    part.length ≤ (commaSep parts).length := by
  induction parts with
  | nil => contradiction
  | cons head rest ih =>
      cases rest with
      | nil =>
          rw [List.mem_singleton.mp hpart]
          exact Nat.le_refl _
      | cons next rest =>
          rw [commaSep, List.length_append, List.length_cons]
          rcases List.mem_cons.mp hpart with hhead | hrest
          · rw [hhead]
            omega
          · have hle := ih hrest
            omega

/-- A list has at most one part more than characters. -/
theorem length_parts_le (parts : List (List Char)) :
    parts.length ≤ (commaSep parts).length + 1 := by
  induction parts with
  | nil => exact Nat.zero_le _
  | cons head rest ih =>
      cases rest with
      | nil => simp
      | cons next rest =>
          rw [commaSep, List.length_append, List.length_cons, List.length_cons]
          rw [List.length_cons] at ih ⊢
          omega

/-- The text of a field. -/
def printField (field : String × Value) : List Char :=
  quote field.1 ++ ':' :: field.2.print

/-- The text of a field is read as this field, if the text of its value is. -/
theorem readField_print {read : List Char → Option (Value × List Char)}
    (field : String × Value) {rest : List Char}
    (hread : read (field.2.print ++ rest) = some (field.2, rest)) :
    readField read (printField field ++ rest) = some (field, rest) := by
  have hname := readChars_quote field.1 (':' :: (field.2.print ++ rest))
  rw [printField, quote, List.cons_append, List.cons_append, List.append_assoc, List.append_assoc,
    List.singleton_append, List.cons_append, readField, hname]
  simp only [hread]
  rw [Option.map_some, String.ofList_toList]

/-- The text of a value that no digit follows is read as this value. -/
theorem readValue_print {n : Nat} (v : Value) (hn : v.print.length ≤ n) {rest : List Char}
    (hrest : EndsNumber rest) : readValue n (v.print ++ rest) = some (v, rest) := by
  induction n generalizing v rest with
  | zero =>
      rcases print_eq_cons v with ⟨c, chars, hprint, _⟩
      rw [hprint] at hn
      contradiction
  | succ n ih =>
      cases v with
      | null => rfl
      | bool b =>
          cases b with
          | true => rfl
          | false => rfl
      | num m =>
          have hread := readNat_toDigits m hrest
          cases hdigits : Nat.toDigits 10 m with
          | nil => exact absurd hdigits Nat.toDigits_ne_nil
          | cons c chars =>
              have hdigit := isDigit_of_toDigits hdigits
              have hne : ∀ d : Char, d.isDigit = false → c ≠ d := by
                intro d hd heq
                rw [← heq, hdigit] at hd
                contradiction
              rw [Value.print, hdigits, List.cons_append, readValue, if_neg (hne _ (by decide)),
                if_neg (hne _ (by decide)), if_neg (hne _ (by decide)), if_pos hdigit,
                ← List.cons_append, ← hdigits, hread]
      | str s =>
          have hread := readChars_quote s rest
          rw [Value.print, quote, List.cons_append, List.append_assoc, List.singleton_append,
            readValue, if_pos rfl, hread]
          simp only [Option.map_some, String.ofList_toList]
      | arr items =>
          rw [Value.print, printItems_eq] at hn ⊢
          rw [List.length_cons, List.length_append, List.length_singleton] at hn
          have hlength := length_parts_le (items.map Value.print)
          rw [List.length_map] at hlength
          have hread : ∀ v ∈ items, ∀ rest, EndsNumber rest →
              readValue n (v.print ++ rest) = some (v, rest) := by
            intro v hv rest hrest
            have hle := length_le_commaSep (List.mem_map_of_mem (f := Value.print) hv)
            exact ih v (by omega) hrest
          have hitems : readList (readValue n) ']' n
              (commaSep (items.map Value.print) ++ ']' :: rest) = some (items, rest) :=
            readList_commaSep (by omega) (by decide) (by decide) rest hread
              fun v _ => print_eq_cons v
          rw [List.cons_append, List.append_assoc, List.singleton_append, readValue,
            if_neg (by decide), if_pos rfl, hitems]
          rfl
      | obj fields =>
          have hprint : printFields fields = fields.map printField := printFields_eq fields
          rw [Value.print, hprint] at hn ⊢
          rw [List.length_cons, List.length_append, List.length_singleton] at hn
          have hlength := length_parts_le (fields.map printField)
          rw [List.length_map] at hlength
          have hread : ∀ field ∈ fields, ∀ rest, EndsNumber rest →
              readField (readValue n) (printField field ++ rest) = some (field, rest) := by
            intro field hfield rest hrest
            have hle := length_le_commaSep (List.mem_map_of_mem (f := printField) hfield)
            rw [printField, List.length_append, List.length_cons] at hle
            exact readField_print field (ih field.2 (by omega) hrest)
          have hfields : readList (readField (readValue n)) '\x7d' n
              (commaSep (fields.map printField) ++ '\x7d' :: rest) = some (fields, rest) :=
            readList_commaSep (by omega) (by decide) (by decide) rest hread
              fun field _ => ⟨_, _, rfl, by decide⟩
          rw [List.cons_append, List.append_assoc, List.singleton_append, readValue,
            if_neg (by decide), if_neg (by decide), if_pos rfl, hfields]
          rfl

/-- The text of a value is read as this value. -/
theorem read_print (v : Value) : read v.print = some v := by
  have hread : readValue v.print.length (v.print ++ []) = some (v, []) :=
    readValue_print v (Nat.le_refl _) fun c hc => by contradiction
  rw [List.append_nil] at hread
  rw [read, hread]

end Json
