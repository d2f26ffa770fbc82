import Mathlib.Order.Lattice
import Mathlib.Data.List.Basic
import IrohSync.Lib.Loop

/-!
# Branch-free binary search

The search halves a window without an early exit: the base moves to the middle
unless the middle is too large, and the one element left at the end decides
between a hit and an insertion point.

Main results:

- Theorem {lit}`binarySearchBy_ok`: a hit has the key that was searched for.
- Theorem {lit}`binarySearchBy_error`: a miss splits a strictly increasing list
  into the smaller and the larger keys.
- Theorem {lit}`binarySearchBy_error_pred`: in front of the insertion point
  stands the largest of the smaller keys.
-/

namespace BinarySearch

open Loop

variable {α : Type}

/-- The window of candidates, {lit}`size` elements from {lit}`base` on. -/
structure Window where
  base : Nat
  size : Nat

/-- Compare the element at a position; positions behind the end are too large. -/
def compareAt (xs : List α) (f : α → Ordering) (i : Nat) : Ordering :=
  match xs[i]? with
  | some x => f x
  | none => .gt

/-- Halve the window until one element is left. -/
def searchLoop (xs : List α) (f : α → Ordering) : Body Window Nat where
  pass w :=
    if 1 < w.size then
      let half := w.size / 2
      let mid := w.base + half
      .next
        { base := if compareAt xs f mid = .gt then w.base else mid
          size := w.size - half }
    else .done w.base
  measure w := w.size
  decreases := by
    intro w w' hpass
    split at hpass
    · simp only [Pass.next.injEq] at hpass
      subst w'
      simp only
      omega
    · contradiction

/-- The index of a matching element, or the place where one could be inserted. -/
def binarySearchBy (xs : List α) (f : α → Ordering) : Except Nat Nat :=
  if xs.length = 0 then .error 0
  else
    let base := (searchLoop xs f).run ⟨0, xs.length⟩
    match compareAt xs f base with
    | .eq => .ok base
    | .lt => .error (base + 1)
    | .gt => .error base

/-! ## Correctness on strictly increasing lists -/

variable {κ : Type} [LinearOrder κ] {xs : List α} {key : α → κ} {k : κ}

/-- What every window of the search satisfies: it is a nonempty part of the
list, everything behind it is too large, and its base is not too large unless
it is the start of the list. -/
structure WindowInvariant (xs : List α) (f : α → Ordering) (w : Window) : Prop where
  size_pos : 0 < w.size
  le_length : w.base + w.size ≤ xs.length
  above : ∀ i, w.base + w.size ≤ i → compareAt xs f i = .gt
  base_le : w.base = 0 ∨ compareAt xs f w.base ≠ .gt

theorem compareAt_of_lt {f : α → Ordering} {i : Nat} (h : i < xs.length) :
    compareAt xs f i = f xs[i] := by
  simp [compareAt, h]

theorem compareAt_of_le {f : α → Ordering} {i : Nat} (h : xs.length ≤ i) :
    compareAt xs f i = .gt := by
  simp [compareAt, h]

/-- In an increasing list everything behind a too large element is too large. -/
theorem compareAt_gt_of_le (hsorted : xs.Pairwise (fun x y => key x < key y)) {i j : Nat}
    (hi : compareAt xs (fun x => compare (key x) k) i = .gt) (hij : i ≤ j) :
    compareAt xs (fun x => compare (key x) k) j = .gt := by
  by_cases hj : j < xs.length
  · rcases Nat.eq_or_lt_of_le hij with rfl | hlt
    · exact hi
    · have hkeys := List.pairwise_iff_getElem.mp hsorted i j (by omega) hj hlt
      rw [compareAt_of_lt (by omega), compare_gt_iff_gt] at hi
      rw [compareAt_of_lt hj, compare_gt_iff_gt]
      exact lt_trans hi hkeys
  · exact compareAt_of_le (by omega)

private theorem windowInvariant_next (hsorted : xs.Pairwise (fun x y => key x < key y))
    {w w' : Window} (hw : WindowInvariant xs (fun x => compare (key x) k) w)
    (hpass : (searchLoop xs (fun x => compare (key x) k)).pass w = .next w') :
    WindowInvariant xs (fun x => compare (key x) k) w' := by
  have hle := hw.le_length
  simp only [searchLoop] at hpass
  split at hpass
  · rename_i hsize
    simp only [Pass.next.injEq] at hpass
    subst w'
    by_cases hmid : compareAt xs (fun x => compare (key x) k) (w.base + w.size / 2) = .gt
    · simp only [hmid, if_true]
      refine ⟨by simp only; omega, by simp only; omega, ?_, hw.base_le⟩
      intro i hi
      exact compareAt_gt_of_le hsorted hmid (by simp only at hi; omega)
    · simp only [hmid, if_false]
      refine ⟨by simp only; omega, by simp only; omega, ?_, Or.inr hmid⟩
      intro i hi
      exact hw.above i (by simp only at hi; omega)
  · contradiction

/-- The search ends on a position that separates the list: everything behind it
is too large, and it is not too large itself unless it is the first. -/
theorem searchLoop_spec (hsorted : xs.Pairwise (fun x y => key x < key y))
    (hne : xs.length ≠ 0) :
    let base := (searchLoop xs (fun x => compare (key x) k)).run ⟨0, xs.length⟩
    base < xs.length ∧
      (∀ i, base < i → compareAt xs (fun x => compare (key x) k) i = .gt) ∧
      (base = 0 ∨ compareAt xs (fun x => compare (key x) k) base ≠ .gt) := by
  apply Body.run_invariant (searchLoop xs (fun x => compare (key x) k))
    (WindowInvariant xs (fun x => compare (key x) k))
    (fun base => base < xs.length ∧
      (∀ i, base < i → compareAt xs (fun x => compare (key x) k) i = .gt) ∧
      (base = 0 ∨ compareAt xs (fun x => compare (key x) k) base ≠ .gt))
  · intro w w' hw hpass
    exact windowInvariant_next hsorted hw hpass
  · intro w base hw hpass
    have hpos := hw.size_pos
    have hle := hw.le_length
    simp only [searchLoop] at hpass
    split at hpass
    · contradiction
    · simp only [Pass.done.injEq] at hpass
      subst base
      exact ⟨by omega, fun i hi => hw.above i (by omega), hw.base_le⟩
  · exact ⟨by simp only; omega, by simp, fun i hi => compareAt_of_le (by simpa using hi),
      Or.inl rfl⟩

/-- A hit has the key that was searched for. -/
theorem binarySearchBy_ok {f : α → Ordering} {i : Nat}
    (h : binarySearchBy xs f = .ok i) : ∃ hi : i < xs.length, f xs[i] = .eq := by
  unfold binarySearchBy at h
  split at h
  · contradiction
  · simp only at h
    split at h <;> rename_i hcmp
    · have hi := Except.ok.inj h
      subst i
      by_cases hlt : (searchLoop xs f).run ⟨0, xs.length⟩ < xs.length
      · exact ⟨hlt, by rwa [compareAt_of_lt hlt] at hcmp⟩
      · rw [compareAt_of_le (by omega)] at hcmp
        contradiction
    · contradiction
    · contradiction

/-- A miss splits an increasing list into the smaller and the larger keys. -/
theorem binarySearchBy_error (hsorted : xs.Pairwise (fun x y => key x < key y)) {i : Nat}
    (h : binarySearchBy xs (fun x => compare (key x) k) = .error i) :
    i ≤ xs.length ∧ (∀ (j : Nat) (hj : j < xs.length), j < i → key xs[j] < k) ∧
      (∀ (j : Nat) (hj : j < xs.length), i ≤ j → k < key xs[j]) := by
  unfold binarySearchBy at h
  split at h
  · rename_i hnil
    have hi := Except.error.inj h
    subst i
    exact ⟨by omega, fun j hj => by omega, fun j hj => by omega⟩
  · rename_i hne
    rcases searchLoop_spec (k := k) hsorted hne with ⟨hlt, habove, hbase⟩
    generalize (searchLoop xs fun x => compare (key x) k).run ⟨0, xs.length⟩ = base at *
    have hcmp : compareAt xs (fun x => compare (key x) k) base = compare (key xs[base]) k :=
      compareAt_of_lt hlt
    have hlarger : ∀ (j : Nat) (hj : j < xs.length), base < j → k < key xs[j] := by
      intro j hj hbj
      have hgt := habove j hbj
      rwa [compareAt_of_lt hj, compare_gt_iff_gt] at hgt
    simp only at h
    split at h <;> rename_i hdecide
    · contradiction
    · have hi := Except.error.inj h
      subst i
      rw [hcmp, compare_lt_iff_lt] at hdecide
      refine ⟨by omega, fun j hj hji => ?_, fun j hj hij => hlarger j hj (by omega)⟩
      rcases Nat.eq_or_lt_of_le (Nat.le_of_lt_succ hji) with rfl | hjb
      · exact hdecide
      · exact lt_trans (List.pairwise_iff_getElem.mp hsorted j base hj hlt hjb) hdecide
    · have hi := Except.error.inj h
      subst i
      -- only the first element can be too large at the end
      rcases hbase with hzero | hnot
      · subst hzero
        rw [hcmp, compare_gt_iff_gt] at hdecide
        refine ⟨by omega, fun j hj hj0 => by omega, fun j hj _ => ?_⟩
        rcases Nat.eq_zero_or_pos j with rfl | hpos
        · exact hdecide
        · exact hlarger j hj hpos
      · exact (hnot hdecide).elim

/-- If some key is not too large, the element in front of the insertion point
has the largest of these keys. -/
theorem binarySearchBy_error_pred (hsorted : xs.Pairwise (fun x y => key x < key y)) {i : Nat}
    (h : binarySearchBy xs (fun x => compare (key x) k) = .error i) {x : α} (hx : x ∈ xs)
    (hle : key x ≤ k) :
    ∃ hlt : i - 1 < xs.length, 0 < i ∧ key x ≤ key xs[i - 1] ∧ key xs[i - 1] < k := by
  rcases binarySearchBy_error hsorted h with ⟨hi, hbelow, habove⟩
  rcases List.getElem_of_mem hx with ⟨b, hb, rfl⟩
  have hbi : b < i := by
    by_contra hnot
    exact absurd hle (not_le.mpr (habove b hb (Nat.le_of_not_lt hnot)))
  have hlt : i - 1 < xs.length := by omega
  refine ⟨hlt, by omega, ?_, hbelow (i - 1) hlt (by omega)⟩
  rcases Nat.eq_or_lt_of_le (Nat.le_sub_one_of_lt hbi) with rfl | hearlier
  · exact le_refl _
  · exact le_of_lt (List.pairwise_iff_getElem.mp hsorted b (i - 1) hb hlt hearlier)

end BinarySearch
