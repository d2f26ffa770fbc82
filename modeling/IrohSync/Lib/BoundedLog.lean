import Mathlib.Data.List.Infix
import Mathlib.Data.List.DropRight

/-!
# Bounded logs

A log that drops its oldest entry whenever a push makes it longer than its
capacity.  A log may start out longer than the capacity; it then keeps its
length.

Main results:

- Theorem {lit}`pushAll_eq_drop`: the log after any number of pushes.
- Theorems {lit}`latest_pushAll` and {lit}`retained_latest_pushAll`: the newest
  entries after a batch of pushes.
-/

namespace BoundedLog

variable {α : Type}

/-- Push an entry and drop the oldest one if the log got too long. -/
def push (capacity : Nat) (log : List α) (x : α) : List α :=
  if capacity < (log ++ [x]).length then (log ++ [x]).tail else log ++ [x]

/-- Push entries one after the other. -/
def pushAll (capacity : Nat) (log xs : List α) : List α :=
  xs.foldl (push capacity) log

/-- The newest entries of a log. -/
def latest (n : Nat) (log : List α) : List α :=
  log.drop (log.length - n)

/-- Of the given entries only as many of the oldest are missing as a log of this
capacity cannot keep. -/
def Retained (capacity : Nat) (xs kept : List α) : Prop :=
  ∃ old, xs = old ++ kept ∧ (old = [] ∨ capacity ≤ kept.length)

@[simp]
theorem pushAll_nil (capacity : Nat) (log : List α) : pushAll capacity log [] = log :=
  rfl

@[simp]
theorem pushAll_cons (capacity : Nat) (log : List α) (x : α) (xs : List α) :
    pushAll capacity log (x :: xs) = pushAll capacity (push capacity log x) xs :=
  rfl

theorem pushAll_append (capacity : Nat) (log front back : List α) :
    pushAll capacity log (front ++ back) = pushAll capacity (pushAll capacity log front) back :=
  List.foldl_append

/-- A push drops at most one entry. -/
theorem push_eq_drop (capacity : Nat) (log : List α) (x : α) :
    push capacity log x = (log ++ [x]).drop (1 - (capacity - log.length)) := by
  simp only [push, List.length_append, List.length_singleton]
  split_ifs with hfull
  · rw [show 1 - (capacity - log.length) = 1 by omega, List.drop_one]
  · rw [show 1 - (capacity - log.length) = 0 by omega, List.drop_zero]

theorem push_length (capacity : Nat) (log : List α) (x : α) :
    (push capacity log x).length = log.length + 1 - (1 - (capacity - log.length)) := by
  rw [push_eq_drop, List.length_drop, List.length_append, List.length_singleton]

/-- The pushes that do not fit into the free space drop one entry each. -/
theorem pushAll_eq_drop (capacity : Nat) (log xs : List α) :
    pushAll capacity log xs = (log ++ xs).drop (xs.length - (capacity - log.length)) := by
  induction xs generalizing log with
  | nil => simp
  | cons x xs ih =>
      rw [pushAll_cons, ih, push_length, push_eq_drop]
      by_cases hfull : capacity ≤ log.length
      · -- the first push already drops an entry
        have hdrop : (log ++ [x]).drop 1 ++ xs = (log ++ x :: xs).drop 1 := by
          rw [← List.drop_append_of_le_length (by simp), List.append_assoc, List.singleton_append]
        rw [show 1 - (capacity - log.length) = 1 by omega, hdrop, List.drop_drop]
        congr 1
        simp only [List.length_cons]
        omega
      · rw [show 1 - (capacity - log.length) = 0 by omega, List.drop_zero, List.append_assoc,
          List.singleton_append]
        congr 1
        simp only [List.length_cons]
        omega

/-- A log with enough free space keeps everything. -/
theorem pushAll_of_le {capacity : Nat} {log xs : List α}
    (hfits : log.length + xs.length ≤ capacity) : pushAll capacity log xs = log ++ xs := by
  rw [pushAll_eq_drop, Nat.sub_eq_zero_of_le (by omega), List.drop_zero]

@[simp]
theorem latest_length (n : Nat) (log : List α) : (latest n log).length = min n log.length := by
  rw [latest, List.length_drop]
  omega

/-- No more entries are the newest ones than there are. -/
theorem latest_min_length (n : Nat) (log : List α) :
    latest (min n log.length) log = latest n log := by
  rw [latest, latest]
  congr 1
  omega

/-- As many newest entries as a log has behind a front. -/
theorem latest_append_length (front rest : List α) :
    latest rest.length (front ++ rest) = rest := by
  rw [latest, List.length_append, Nat.add_sub_cancel, List.drop_left]

/-- In a log that is numbered consecutively the newest entries are those from a
number on. -/
theorem mem_latest_iff {log : List α} {number : α → Nat} {start : Nat}
    (hnumber : log.map number = List.range' start log.length) {n : Nat} {x : α} :
    x ∈ latest n log ↔ x ∈ log ∧ start + (log.length - n) ≤ number x := by
  unfold latest
  constructor
  · intro hx
    have hmem := List.mem_map_of_mem (f := number) hx
    rw [List.map_drop, hnumber, List.drop_range', Nat.mul_one] at hmem
    exact ⟨List.mem_of_mem_drop hx, (List.mem_range'_1.mp hmem).1⟩
  · rintro ⟨hx, hle⟩
    rw [← List.take_append_drop (log.length - n) log, List.mem_append] at hx
    rcases hx with hold | hnew
    · -- older entries have smaller numbers
      have hmem := List.mem_map_of_mem (f := number) hold
      rw [List.map_take, hnumber, List.take_range'_of_length_ge (Nat.sub_le _ _)] at hmem
      have hlt := (List.mem_range'_1.mp hmem).2
      omega
    · exact hnew

/-- The newest entries of a log that lost its oldest ones. -/
theorem latest_drop (n k : Nat) (log : List α) :
    latest n (log.drop k) = latest (min n (log.length - k)) log := by
  simp only [latest, List.length_drop, List.drop_drop]
  by_cases hk : k ≤ log.length
  · congr 1
    omega
  · rw [List.drop_eq_nil_of_le (by omega), List.drop_eq_nil_of_le (by omega)]

/-- The newest entries of the newest entries. -/
theorem latest_latest (m n : Nat) (log : List α) :
    latest m (latest n log) = latest (min m n) log := by
  rw [latest, latest_length, latest, List.drop_drop, latest]
  congr 1
  omega

/-- The newest entries of a log and of what follows it. -/
theorem latest_append_of_le {n : Nat} {log xs : List α} (hle : n ≤ xs.length) :
    latest n (log ++ xs) = latest n xs := by
  have hsplit : log.length + xs.length - n = log.length + (xs.length - n) := by omega
  rw [latest, List.length_append, hsplit, List.drop_length_add_append, latest]

theorem pushAll_length (capacity : Nat) (log xs : List α) :
    (pushAll capacity log xs).length =
      log.length + xs.length - (xs.length - (capacity - log.length)) := by
  rw [pushAll_eq_drop, List.length_drop, List.length_append]

/-- The newest entries after pushes are those of the untrimmed log. -/
theorem latest_pushAll (n capacity : Nat) (log xs : List α) :
    latest n (pushAll capacity log xs) =
      latest (min n (pushAll capacity log xs).length) (log ++ xs) := by
  rw [pushAll_length, pushAll_eq_drop, latest_drop, List.length_append]

/-- The newest entries after pushes are the pushed ones, as far as the log keeps
them. -/
theorem retained_latest_pushAll (capacity : Nat) (log xs : List α) :
    Retained capacity xs (latest xs.length (pushAll capacity log xs)) := by
  have hlen := pushAll_length capacity log xs
  rw [latest_pushAll, latest_append_of_le (Nat.min_le_left _ _)]
  refine ⟨xs.take (xs.length - min xs.length (pushAll capacity log xs).length),
    (List.take_append_drop _ _).symm, ?_⟩
  by_cases hall : xs.length ≤ (pushAll capacity log xs).length
  · left
    rw [Nat.min_eq_left hall, Nat.sub_self, List.take_zero]
  · right
    rw [latest_length]
    omega

end BoundedLog
