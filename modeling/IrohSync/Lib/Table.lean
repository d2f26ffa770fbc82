import Mathlib.Algebra.BigOperators.Group.List.Lemmas
import Mathlib.Algebra.Order.Ring.Nat
import Mathlib.Data.List.AList

/-!
# Tables

How many entries a table with unique keys has after an insertion or a removal, a function
applied to all its values, and values that are changed one at a time, from a default where
there is none.

Main results:

- Theorems {lit}`Table.length_insert_of_notMem`, {lit}`Table.length_insert_of_mem` and
  {lit}`Table.length_erase_of_mem`.
- Theorem {lit}`Table.lookup_mapValues`: what is found after a function was applied.
- Theorem {lit}`Table.lookup_filter`: what is found in a part of a table.
- Theorem {lit}`Table.lookup_foldl_modify`: what is found after changes at many keys.
- Theorem {lit}`Table.sum_length_filter`: how many elements all keys have together.
-/

namespace Table

variable {κ ν : Type} {table : AList fun _ : κ => ν} {key : κ}

/-- Apply a function to all values. -/
def mapValues (f : ν → ν) (table : AList fun _ : κ => ν) : AList fun _ : κ => ν :=
  ⟨table.entries.map (.map id fun _ => f), table.nodupKeys.map₂ (fun _ => f) table.entries⟩

theorem length_keys : table.keys.length = table.entries.length := by
  rw [AList.keys, List.keys, List.length_map]

variable [DecidableEq κ]

/-- A new key adds an entry. -/
theorem length_insert_of_notMem (hnew : key ∉ table) (value : ν) :
    (table.insert key value).entries.length = table.entries.length + 1 := by
  rw [AList.entries_insert_of_notMem hnew, List.length_cons]

/-- A removal takes an entry away. -/
theorem length_erase_of_mem (hold : key ∈ table) :
    (table.erase key).entries.length + 1 = table.entries.length := by
  have hkey := AList.mem_keys.mp hold
  have hpos := List.length_pos_of_mem hkey
  rw [← length_keys, ← length_keys, AList.keys_erase, List.length_erase_of_mem hkey]
  omega

/-- A key that is there already gets another value. -/
theorem length_insert_of_mem (hold : key ∈ table) (value : ν) :
    (table.insert key value).entries.length = table.entries.length := by
  have hkey := AList.mem_keys.mp hold
  have hpos := List.length_pos_of_mem hkey
  rw [← length_keys, ← length_keys, AList.keys_insert, List.length_cons,
    List.length_erase_of_mem hkey]
  omega

/-- No removal adds entries. -/
theorem length_erase_le : (table.erase key).entries.length ≤ table.entries.length := by
  rw [← length_keys, ← length_keys, AList.keys_erase]
  exact List.length_erase_le

theorem lookup_mapValues (f : ν → ν) (table : AList fun _ : κ => ν) (key : κ) :
    (mapValues f table).lookup key = (table.lookup key).map f :=
  List.dlookup_map₂ key

/-- What is found in the part of a table whose entries meet a condition. -/
theorem lookup_filter (p : (_ : κ) × ν → Bool) (table : AList fun _ : κ => ν)
    (hnodup : (table.entries.filter p).NodupKeys) (key : κ) :
    (⟨table.entries.filter p, hnodup⟩ : AList fun _ : κ => ν).lookup key =
      (table.lookup key).filter fun value => p ⟨key, value⟩ := by
  refine Option.ext fun value => ?_
  rw [← Option.mem_def, AList.mem_lookup_iff, List.mem_filter, ← AList.mem_lookup_iff,
    Option.filter_eq_some_iff, Option.mem_def]

/-- Change the value under a key; a key that is new starts from a default. -/
def modify (default : ν) (f : ν → ν) (key : κ) (table : AList fun _ : κ => ν) :
    AList fun _ : κ => ν :=
  table.insert key (f ((table.lookup key).getD default))

/-- After changes at many keys a key has gone through those that were for it, in order. -/
theorem lookup_foldl_modify {α : Type} (default : ν) (keyOf : α → κ) (f : α → ν → ν)
    (xs : List α) (table : AList fun _ : κ => ν) (key : κ) :
    (xs.foldl (fun table x => modify default (f x) (keyOf x) table) table).lookup key =
      if xs.filter (fun x => decide (keyOf x = key)) = [] then table.lookup key
      else some ((xs.filter fun x => decide (keyOf x = key)).foldl (fun value x => f x value)
        ((table.lookup key).getD default)) := by
  induction xs generalizing table with
  | nil => simp
  | cons x xs ih =>
      rw [List.foldl_cons, ih]
      by_cases hkey : keyOf x = key
      · have hlookup : (modify default (f x) (keyOf x) table).lookup key =
            some (f x ((table.lookup key).getD default)) := by
          rw [modify, hkey, AList.lookup_insert]
        rw [List.filter_cons_of_pos (by simpa using hkey), if_neg (List.cons_ne_nil _ _),
          hlookup, List.foldl_cons, Option.getD_some]
        split_ifs with hnone
        · rw [hnone, List.foldl_nil]
        · rfl
      · have hlookup : (modify default (f x) (keyOf x) table).lookup key = table.lookup key :=
          AList.lookup_insert_ne (Ne.symm hkey)
        rw [List.filter_cons_of_neg (by simpa using hkey), hlookup]

/-- The same from an empty table. -/
theorem lookup_foldl_modify_empty {α : Type} (default : ν) (keyOf : α → κ) (f : α → ν → ν)
    (xs : List α) (key : κ) :
    (xs.foldl (fun table x => modify default (f x) (keyOf x) table) ∅).lookup key =
      if xs.filter (fun x => decide (keyOf x = key)) = [] then none
      else some ((xs.filter fun x => decide (keyOf x = key)).foldl (fun value x => f x value)
        default) := by
  rw [lookup_foldl_modify, AList.lookup_empty, Option.getD_none]

/-- The keys of some elements, each listed once, have all the elements together. -/
theorem sum_length_filter {α : Type} (keyOf : α → κ) (xs : List α) {keys : List κ}
    (hnodup : keys.Nodup) (hkeys : ∀ key, key ∈ keys ↔ key ∈ xs.map keyOf) :
    (keys.map fun key => (xs.filter fun x => decide (keyOf x = key)).length).sum =
      xs.length := by
  have hperm : keys.Perm (xs.map keyOf).dedup := by
    apply (List.perm_ext_iff_of_nodup hnodup (List.nodup_dedup _)).mpr
    intro key
    rw [hkeys, List.mem_dedup]
  have hcount : ∀ key, (xs.filter fun x => decide (keyOf x = key)).length =
      (xs.map keyOf).count key := by
    intro key
    rw [List.count, List.countP_map, List.countP_eq_length_filter]
    rfl
  calc (keys.map fun key => (xs.filter fun x => decide (keyOf x = key)).length).sum
    _ = (keys.map fun key => (xs.map keyOf).count key).sum := by simp only [hcount]
    _ = ((xs.map keyOf).dedup.map fun key => (xs.map keyOf).count key).sum :=
        (hperm.map _).sum_eq
    _ = xs.length := by rw [List.sum_map_count_dedup_eq_length, List.length_map]

end Table
