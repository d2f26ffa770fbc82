import IrohSync.Lib.Json

/-!
# Typed data in JSON values

Words, texts, byte strings, maps and records are read out of values.  A record takes its
fields by name, in any order, and passes over fields that it does not know; it has no field
that stands there twice.  An array with the fields in their order is a record as well.

Main results:

- Theorem {lit}`mapM_map`: a list whose elements are read back is read back.
- Theorem {lit}`octets_ofBytes`: a byte string is read back from its array of numbers.
- Theorem {lit}`textMap_entries`: a map is read back from its entries.
-/

namespace Json

open FileIo Text

variable {α β γ : Type}

/-! ## Values -/

/-- A 64-bit number. -/
def Value.word : Value → Option UInt64
  | .num n => if n < 2 ^ 64 then some (UInt64.ofNat n) else none
  | _ => none

/-- A number of one byte. -/
def Value.byte : Value → Option UInt8
  | .num n => if n < 256 then some (UInt8.ofNat n) else none
  | _ => none

/-- A truth value. -/
def Value.flag : Value → Option Bool
  | .bool b => some b
  | _ => none

/-- A text. -/
def Value.text : Value → Option String
  | .str s => some s
  | _ => none

/-- A list. -/
def Value.items (decode : Value → Option α) : Value → Option (List α)
  | .arr items => items.mapM decode
  | _ => none

/-- A byte string: an array of numbers, or the bytes of a text. -/
def Value.octets : Value → Option Bytes
  | .arr items => items.mapM Value.byte
  | .str s => some (asBytes s)
  | _ => none

/-- A value that may be null. -/
def Value.nullable (decode : Value → Option α) : Value → Option (Option α)
  | .null => some none
  | v => (decode v).map some

/-- The fields of an object. -/
def Value.fields : Value → Option (List (String × Value))
  | .obj fields => some fields
  | _ => none

/-- Put an entry into a map; it takes the place of one with the same key. -/
def insertEntry (entries : List (String × String)) (entry : String × String) :
    List (String × String) :=
  entries.filter (fun other => other.1 != entry.1) ++ [entry]

/-- A map from texts to texts. -/
def Value.textMap (v : Value) : Option (List (String × String)) :=
  (v.fields.bind fun fields => fields.mapM fun field => field.2.text.map (field.1, ·)).map
    fun entries => entries.foldl insertEntry []

/-- An object without a field. -/
def Value.without (name : String) : Value → Value
  | .obj fields => .obj (fields.filter fun field => field.1 != name)
  | v => v

/-! ## Records -/

/-- A field of a record, which may be missing. -/
def field (fields : List (String × Value)) (name : String) : Option (Option Value) :=
  match fields.filter fun field => field.1 == name with
  | [] => some none
  | [(_, v)] => some (some v)
  | _ => none

/-- The fields of a record: those of an object, or the items of an array under their names, of
which the first ones have to be there. -/
def Value.record (names : List String) (least : Nat) : Value → Option (List (String × Value))
  | .obj fields => some fields
  | .arr items =>
      if least ≤ items.length ∧ items.length ≤ names.length then some (names.zip items) else none
  | _ => none

/-- A field that is there. -/
def required (decode : Value → Option α) (fields : List (String × Value)) (name : String) :
    Option α :=
  (field fields name).bind fun value => value.bind decode

/-- A field with a default. -/
def defaulted (decode : Value → Option α) (missing : α) (fields : List (String × Value))
    (name : String) : Option α :=
  (field fields name).bind fun value => value.elim (some missing) decode

/-- A field that may be null or missing. -/
def optionField (decode : Value → Option α) (fields : List (String × Value)) (name : String) :
    Option (Option α) :=
  defaulted (Value.nullable decode) none fields name

/-! ## Limits of readers -/

/-- The numbers of a value have 64 bits, and it is at most so many levels deep. -/
inductive Value.Fits : Nat → Value → Prop where
  | null (depth : Nat) : Fits depth .null
  | bool (depth : Nat) (b : Bool) : Fits depth (.bool b)
  | num (depth : Nat) {n : Nat} (hlt : n < 2 ^ 64) : Fits depth (.num n)
  | str (depth : Nat) (s : String) : Fits depth (.str s)
  | arr {depth : Nat} {items : List Value} (hitems : ∀ v ∈ items, Fits depth v) :
      Fits (depth + 1) (.arr items)
  | obj {depth : Nat} {fields : List (String × Value)} (hfields : ∀ field ∈ fields,
      Fits depth field.2) : Fits (depth + 1) (.obj fields)

theorem fits_word (depth : Nat) (n : UInt64) : (Value.num n.toNat).Fits depth :=
  .num depth n.toNat_lt

theorem fits_ofBytes (depth : Nat) (bytes : Bytes) : (ofBytes bytes).Fits (depth + 1) := by
  refine .arr fun v hv => ?_
  rcases List.mem_map.mp hv with ⟨b, _, rfl⟩
  exact .num depth (Nat.lt_trans b.toNat_lt (by decide))

theorem fits_textMap (depth : Nat) (entries : List (String × String)) :
    (Value.obj (entries.map fun entry => (entry.1, .str entry.2))).Fits (depth + 1) := by
  refine .obj fun field hfield => ?_
  rcases List.mem_map.mp hfield with ⟨entry, _, rfl⟩
  exact .str depth entry.2

theorem Value.Fits.without {depth : Nat} {v : Value} (hfits : v.Fits depth) (name : String) :
    (v.without name).Fits depth := by
  cases hfits with
  | obj hfields => exact .obj fun field hfield => hfields field (List.mem_of_mem_filter hfield)
  | null => exact .null depth
  | bool _ b => exact .bool depth b
  | num _ hlt => exact .num depth hlt
  | str _ s => exact .str depth s
  | arr hitems => exact .arr hitems

/-! ## What is written is read back -/

@[simp]
theorem word_num (n : UInt64) : (Value.num n.toNat).word = some n := by
  rw [Value.word, if_pos n.toNat_lt, UInt64.ofNat_toNat]

@[simp]
theorem byte_num (b : UInt8) : (Value.num b.toNat).byte = some b := by
  rw [Value.byte, if_pos b.toNat_lt, UInt8.ofNat_toNat]

/-- A list whose elements are read back is read back. -/
theorem mapM_map {encode : α → γ} {decode : γ → Option β} {f : α → β} {xs : List α}
    (hback : ∀ x ∈ xs, decode (encode x) = some (f x)) :
    (xs.map encode).mapM decode = some (xs.map f) := by
  induction xs with
  | nil => rfl
  | cons x xs ih =>
      rw [List.map_cons, List.mapM_cons, hback x List.mem_cons_self,
        ih fun x hx => hback x (List.mem_cons_of_mem _ hx)]
      rfl

/-- A byte string is read back from its array of numbers. -/
@[simp]
theorem octets_ofBytes (bytes : Bytes) : (ofBytes bytes).octets = some bytes := by
  rw [ofBytes, Value.octets, mapM_map (f := id) fun b _ => byte_num b, List.map_id]

theorem required_eq {decode : Value → Option α} {fields : List (String × Value)} {name : String}
    {v : Value} {x : α} (hfield : field fields name = some (some v)) (hback : decode v = some x) :
    required decode fields name = some x := by
  rw [required, hfield, Option.bind_some, Option.bind_some, hback]

theorem optionField_eq {decode : Value → Option α} {fields : List (String × Value)}
    {name : String} {v : Value} {x : Option α} (hfield : field fields name = some (some v))
    (hback : v.nullable decode = some x) : optionField decode fields name = some x := by
  rw [optionField, defaulted, hfield, Option.bind_some, Option.elim_some, hback]

/-- A field that only the front of an object may have. -/
theorem field_append_left {front back : List (String × Value)} {name : String}
    (hback : ∀ field ∈ back, field.1 ≠ name) : field (front ++ back) name = field front name := by
  have hnone : back.filter (fun field => field.1 == name) = [] :=
    List.filter_eq_nil_iff.mpr fun field hfield heq => hback field hfield (beq_iff_eq.mp heq)
  rw [field, List.filter_append, hnone, List.append_nil]
  rfl

/-- A field that only the back of an object may have. -/
theorem field_append_right {front back : List (String × Value)} {name : String}
    (hfront : ∀ field ∈ front, field.1 ≠ name) : field (front ++ back) name = field back name := by
  have hnone : front.filter (fun field => field.1 == name) = [] :=
    List.filter_eq_nil_iff.mpr fun field hfield heq => hfront field hfield (beq_iff_eq.mp heq)
  rw [field, List.filter_append, hnone, List.nil_append]
  rfl

/-- Entries with new and distinct keys are put behind the ones that are there. -/
theorem foldl_insertEntry (front : List (String × String)) {back : List (String × String)}
    (hkeys : ((front ++ back).map Prod.fst).Nodup) :
    back.foldl insertEntry front = front ++ back := by
  induction back generalizing front with
  | nil => exact (List.append_nil front).symm
  | cons entry back ih =>
      have hnew : ∀ other ∈ front, (other.1 != entry.1) = true := by
        intro other hother
        rw [List.map_append, List.nodup_append] at hkeys
        exact bne_iff_ne.mpr (hkeys.2.2 _ (List.mem_map_of_mem hother) _ List.mem_cons_self)
      rw [List.append_cons] at hkeys ⊢
      rw [List.foldl_cons, insertEntry, List.filter_eq_self.mpr hnew, ih _ hkeys]

/-- A map is read back from its entries. -/
theorem textMap_entries {entries : List (String × String)}
    (hkeys : (entries.map Prod.fst).Nodup) :
    (Value.obj (entries.map fun entry => (entry.1, .str entry.2))).textMap = some entries := by
  have hback : (entries.map fun entry => (entry.1, Value.str entry.2)).mapM
      (fun field => field.2.text.map (field.1, ·)) = some (entries.map id) :=
    mapM_map fun _ _ => rfl
  have hfold : entries.foldl insertEntry [] = entries := foldl_insertEntry [] hkeys
  rw [Value.textMap, Value.fields, Option.bind_some, hback, List.map_id, Option.map_some, hfold]

/-- A value that may be absent is read back, unless it is written as null. -/
theorem nullable_getD (encode : α → Value) {decode : Value → Option α}
    (hback : ∀ x, decode (encode x) = some x) (hnull : ∀ x, encode x ≠ .null) (x : Option α) :
    ((x.map encode).getD .null).nullable decode = some x := by
  cases x with
  | none => rfl
  | some x =>
      rw [Option.map_some, Option.getD_some, Value.nullable.eq_def]
      split
      · next heq => exact absurd heq (hnull x)
      · rw [hback, Option.map_some]

/-! ## What is read is well formed -/

/-- What is put into a map keeps its keys distinct. -/
theorem nodup_insertEntry {entries : List (String × String)}
    (hkeys : (entries.map Prod.fst).Nodup) (entry : String × String) :
    ((insertEntry entries entry).map Prod.fst).Nodup := by
  rw [insertEntry, List.map_append, List.nodup_append]
  refine ⟨hkeys.sublist (List.filter_sublist.map Prod.fst), by simp, ?_⟩
  intro key hkey key' hkey' heq
  rcases List.mem_map.mp hkey with ⟨other, hother, rfl⟩
  rw [List.map_singleton, List.mem_singleton] at hkey'
  exact bne_iff_ne.mp (List.mem_filter.mp hother).2 (heq.trans hkey')

/-- The keys of a map that is read are distinct. -/
theorem nodup_textMap {v : Value} {entries : List (String × String)}
    (hread : v.textMap = some entries) : (entries.map Prod.fst).Nodup := by
  have hfold : ∀ back front : List (String × String), (front.map Prod.fst).Nodup →
      ((back.foldl insertEntry front).map Prod.fst).Nodup := by
    intro back
    induction back with
    | nil => exact fun _ hfront => hfront
    | cons entry back ih => exact fun front hfront => ih _ (nodup_insertEntry hfront entry)
  rcases Option.map_eq_some_iff.mp hread with ⟨back, _, rfl⟩
  exact hfold back [] List.nodup_nil

/-- What holds of every item that is read holds of all that are read from an array. -/
theorem forall_of_mapM {P : β → Prop} {decode : α → Option β}
    (hdecode : ∀ a b, decode a = some b → P b) {as : List α} {bs : List β}
    (hread : as.mapM decode = some bs) : ∀ b ∈ bs, P b := by
  induction as generalizing bs with
  | nil =>
      simp only [List.mapM_nil, Option.pure_def, Option.some.injEq] at hread
      simp [← hread]
  | cons a as ih =>
      simp only [List.mapM_cons, Option.bind_eq_bind, Option.bind_eq_some_iff, Option.pure_def,
        Option.some.injEq] at hread
      rcases hread with ⟨b, hb, rest, hrest, rfl⟩
      intro b' hb'
      rcases List.mem_cons.mp hb' with rfl | hb'
      · exact hdecode a _ hb
      · exact ih hrest b' hb'

end Json
