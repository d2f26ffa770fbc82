import Mathlib.Data.List.Basic

/-!
# Cutting a list into chunks

The chunks of a list have one common length except for the last, which may be
shorter.  A chunk is given by its position alone, so the chunks can be counted,
compared and put together again in any order.

Main results:

- Theorem {lit}`chunks_cons`: the chunks of a list are its front and the chunks
  of the rest.
- Theorem {lit}`chunks_flatten`: the chunks together are the list.
- Theorems {lit}`chunk_ne_nil` and {lit}`chunk_length_le`: no chunk is empty or
  too long.
-/

namespace Chunks

variable {α : Type}

/-- The number of chunks: the length divided by the size, rounded up. -/
def divCeil (length size : Nat) : Nat :=
  (length + size - 1) / size

/-- The chunk at a position. -/
def chunk (size : Nat) (xs : List α) (i : Nat) : List α :=
  (xs.drop (i * size)).take size

/-- The chunks of a list in order. -/
def chunks (size : Nat) (xs : List α) : List (List α) :=
  (List.range (divCeil xs.length size)).map (chunk size xs)

/-! ## Counting -/

theorem divCeil_zero {size : Nat} (hsize : 0 < size) : divCeil 0 size = 0 := by
  unfold divCeil
  rw [Nat.zero_add]
  exact Nat.div_eq_of_lt (Nat.sub_lt hsize Nat.one_pos)

/-- A position is one of a chunk exactly if the chunk begins inside the list. -/
theorem lt_divCeil_iff {length size i : Nat} (hsize : 0 < size) :
    i < divCeil length size ↔ i * size < length := by
  unfold divCeil
  rw [Nat.lt_iff_add_one_le, Nat.le_div_iff_mul_le hsize, Nat.add_mul]
  omega

/-- The chunks reach the end of the list. -/
theorem le_divCeil_mul (length : Nat) {size : Nat} (hsize : 0 < size) :
    length ≤ divCeil length size * size := by
  by_contra hlt
  exact Nat.lt_irrefl _ ((lt_divCeil_iff hsize).mpr (Nat.lt_of_not_le hlt))

theorem divCeil_pos {length size : Nat} (hsize : 0 < size) (hlength : 0 < length) :
    0 < divCeil length size := by
  rw [lt_divCeil_iff hsize]
  omega

/-- A list longer than a chunk has one chunk more than what follows the chunk. -/
theorem divCeil_drop {length size : Nat} (hsize : 0 < size) (hlength : 0 < length) :
    divCeil length size = divCeil (length - size) size + 1 := by
  unfold divCeil
  by_cases hle : size ≤ length
  · rw [← Nat.add_div_right _ hsize]
    congr 1
    omega
  · -- one short chunk, and nothing after it
    have hrest : length - size = 0 := Nat.sub_eq_zero_of_le (Nat.le_of_not_le hle)
    have hone : length + size - 1 = length - 1 + size := by omega
    rw [hrest, hone, Nat.add_div_right _ hsize, Nat.div_eq_of_lt (by omega),
      Nat.div_eq_of_lt (by omega)]

/-! ## Single chunks -/

theorem chunk_length (size : Nat) (xs : List α) (i : Nat) :
    (chunk size xs i).length = min size (xs.length - i * size) := by
  simp [chunk]

/-- No chunk is longer than the size. -/
theorem chunk_length_le (size : Nat) (xs : List α) (i : Nat) :
    (chunk size xs i).length ≤ size := by
  rw [chunk_length]
  exact Nat.min_le_left _ _

/-- No chunk is empty. -/
theorem chunk_ne_nil {size : Nat} (hsize : 0 < size) {xs : List α} {i : Nat}
    (hi : i < divCeil xs.length size) : chunk size xs i ≠ [] := by
  have hbegins := (lt_divCeil_iff hsize).mp hi
  rw [← List.length_pos_iff, chunk_length]
  omega

/-! ## All chunks -/

@[simp]
theorem chunks_nil {size : Nat} (hsize : 0 < size) : chunks size ([] : List α) = [] := by
  rw [chunks, List.length_nil, divCeil_zero hsize]
  rfl

/-- The chunks of a list are its front and the chunks of the rest. -/
theorem chunks_cons {size : Nat} (hsize : 0 < size) {xs : List α} (hne : xs ≠ []) :
    chunks size xs = xs.take size :: chunks size (xs.drop size) := by
  have hcount := divCeil_drop hsize (List.length_pos_iff.mpr hne)
  rw [chunks, hcount, List.range_succ_eq_map, List.map_cons, List.map_map, chunks,
    List.length_drop]
  congr 1
  · simp [chunk]
  · apply List.map_congr_left
    intro i _
    simp [chunk, Nat.add_mul, Nat.add_comm]

/-- The first chunks are the front of the list. -/
theorem flatten_take_chunks (size : Nat) (xs : List α) (n : Nat) :
    ((List.range n).map (chunk size xs)).flatten = xs.take (n * size) := by
  induction n with
  | zero => simp
  | succ n ih =>
      rw [List.range_succ, List.map_append, List.flatten_append, ih, Nat.add_mul, Nat.one_mul,
        List.take_add]
      simp [chunk]

/-- The chunks together are the list. -/
theorem chunks_flatten {size : Nat} (hsize : 0 < size) (xs : List α) :
    (chunks size xs).flatten = xs := by
  rw [chunks, flatten_take_chunks, List.take_of_length_le (le_divCeil_mul _ hsize)]

end Chunks
