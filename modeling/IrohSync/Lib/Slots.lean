import Mathlib.Data.List.GetD
import Mathlib.Data.List.Basic

/-!
# Slots filled in any order

A list that grows to the largest position at which a value was placed, with a
filler in the slots that got none.  Values may be placed in any order and more than
once; the last one counts.

Main results:

- Theorem {lit}`placeAll_length`: how far the slots reach.
- Theorem {lit}`getD_placeAll`: a slot holds the last value placed there.
- Theorems {lit}`getD_placeAll_of` and {lit}`filled_iff`: what the slots hold, and
  when none is left empty, if the values are given by their positions.
-/

namespace Slots

variable {α : Type}

/-- Cut a list to a length, or extend it by fillers. -/
def resize (n : Nat) (fill : α) (xs : List α) : List α :=
  xs.take n ++ List.replicate (n - xs.length) fill

/-- Place a value in a slot, which is added if it is not there. -/
def place (fill : α) (xs : List α) (i : Nat) (x : α) : List α :=
  (if xs.length ≤ i then resize (i + 1) fill xs else xs).set i x

/-- Place values one after the other. -/
def placeAll (fill : α) (xs : List α) (placements : List (Nat × α)) : List α :=
  placements.foldl (fun xs p => place fill xs p.1 p.2) xs

/-- The number of slots that placements need. -/
def extent : List (Nat × α) → Nat
  | [] => 0
  | p :: placements => max (p.1 + 1) (extent placements)

/-- What a slot holds after placements if it held a value before. -/
def heldAfter (i : Nat) (held : α) (placements : List (Nat × α)) : α :=
  placements.foldl (fun held p => if p.1 = i then p.2 else held) held

@[simp]
theorem placeAll_nil (fill : α) (xs : List α) : placeAll fill xs [] = xs :=
  rfl

@[simp]
theorem placeAll_cons (fill : α) (xs : List α) (p : Nat × α) (placements : List (Nat × α)) :
    placeAll fill xs (p :: placements) = placeAll fill (place fill xs p.1 p.2) placements :=
  rfl

@[simp]
theorem heldAfter_nil (i : Nat) (held : α) : heldAfter i held [] = held :=
  rfl

@[simp]
theorem heldAfter_cons (i : Nat) (held : α) (p : Nat × α) (placements : List (Nat × α)) :
    heldAfter i held (p :: placements) =
      heldAfter i (if p.1 = i then p.2 else held) placements :=
  rfl

/-! ## Single placements -/

/-- Extending a list changes no slot. -/
theorem getD_resize {n : Nat} (fill : α) {xs : List α} (hle : xs.length ≤ n) (j : Nat) :
    (resize n fill xs).getD j fill = xs.getD j fill := by
  rw [resize, List.take_of_length_le hle]
  by_cases hj : j < xs.length
  · rw [List.getD_append _ _ _ _ hj]
  · rw [List.getD_append_right _ _ _ _ (Nat.le_of_not_lt hj),
      List.getD_eq_default xs fill (Nat.le_of_not_lt hj)]
    by_cases hfill : j - xs.length < n - xs.length
    · rw [List.getD_replicate _ hfill]
    · exact List.getD_eq_default _ _ (by rw [List.length_replicate]; omega)

theorem place_length (fill : α) (xs : List α) (i : Nat) (x : α) :
    (place fill xs i x).length = max xs.length (i + 1) := by
  rw [place, List.length_set]
  split_ifs with hle
  · rw [resize, List.length_append, List.length_take, List.length_replicate]
    omega
  · omega

/-- Setting a slot changes no other. -/
theorem getD_set (fill : α) {xs : List α} {i : Nat} (hi : i < xs.length) (j : Nat) (x : α) :
    (xs.set i x).getD j fill = if i = j then x else xs.getD j fill := by
  rw [List.getD_eq_getElem?_getD, List.getD_eq_getElem?_getD, List.getElem?_set]
  by_cases hij : i = j
  · rw [if_pos hij, if_pos hij, if_pos hi]
    rfl
  · rw [if_neg hij, if_neg hij]

/-- Placing a value changes its slot only. -/
theorem getD_place (fill : α) (xs : List α) (i j : Nat) (x : α) :
    (place fill xs i x).getD j fill = if i = j then x else xs.getD j fill := by
  unfold place
  by_cases hle : xs.length ≤ i
  · have hi : i < (resize (i + 1) fill xs).length := by
      rw [resize, List.length_append, List.length_take, List.length_replicate]
      omega
    rw [if_pos hle, getD_set fill hi, getD_resize fill (Nat.le_succ_of_le hle)]
  · rw [if_neg hle, getD_set fill (Nat.lt_of_not_le hle)]

/-! ## Many placements -/

/-- The slots reach to the last position that was needed. -/
theorem placeAll_length (fill : α) (xs : List α) (placements : List (Nat × α)) :
    (placeAll fill xs placements).length = max xs.length (extent placements) := by
  induction placements generalizing xs with
  | nil => simp [extent]
  | cons p placements ih =>
      rw [placeAll_cons, ih, place_length, extent]
      omega

/-- A slot holds the last value that was placed there. -/
theorem getD_placeAll (fill : α) (xs : List α) (placements : List (Nat × α)) (j : Nat) :
    (placeAll fill xs placements).getD j fill = heldAfter j (xs.getD j fill) placements := by
  induction placements generalizing xs with
  | nil => rfl
  | cons p placements ih => rw [placeAll_cons, ih, getD_place, heldAfter_cons]

/-- There are no more slots than a bound exactly if no placement is at or above it. -/
theorem extent_le_iff {placements : List (Nat × α)} {n : Nat} :
    extent placements ≤ n ↔ ∀ p ∈ placements, p.1 < n := by
  induction placements with
  | nil => simp [extent]
  | cons p placements ih =>
      rw [extent, Nat.max_le, ih, List.forall_mem_cons]
      rfl

/-- The last slot is one at which something was placed. -/
theorem exists_mem_extent {placements : List (Nat × α)} (hne : placements ≠ []) :
    ∃ p ∈ placements, p.1 + 1 = extent placements := by
  induction placements with
  | nil => exact absurd rfl hne
  | cons p placements ih =>
      by_cases hlast : extent placements ≤ p.1 + 1
      · exact ⟨p, List.mem_cons_self, (Nat.max_eq_left hlast).symm⟩
      · have hrest : placements ≠ [] := by
          rintro rfl
          exact hlast (Nat.zero_le _)
        rcases ih hrest with ⟨q, hq, heq⟩
        refine ⟨q, List.mem_cons_of_mem _ hq, ?_⟩
        rw [heq, extent, Nat.max_eq_right (Nat.le_of_not_le hlast)]

/-- There is a placement at every position below the last exactly if none is missing
below another one. -/
theorem forall_lt_extent_iff {placements : List (Nat × α)} :
    (∀ i < extent placements, i ∈ placements.map Prod.fst) ↔
      ∀ j ∈ placements.map Prod.fst, ∀ i < j, i ∈ placements.map Prod.fst := by
  constructor
  · intro hall j hj i hij
    rcases List.mem_map.mp hj with ⟨p, hp, rfl⟩
    exact hall i (Nat.lt_trans hij (extent_le_iff.mp (Nat.le_refl _) p hp))
  · intro hbelow i hi
    have hne : placements ≠ [] := by
      rintro rfl
      exact Nat.not_lt_zero i hi
    rcases exists_mem_extent hne with ⟨p, hp, hlast⟩
    have hmem := List.mem_map_of_mem (f := Prod.fst) hp
    rcases Nat.lt_or_eq_of_le (Nat.le_of_lt_succ (hlast ▸ hi)) with hlt | heq
    · exact hbelow p.1 hmem i hlt
    · exact heq ▸ hmem

/-- The slots are given by what each one holds. -/
theorem eq_map_getD (fill : α) (xs : List α) :
    xs = (List.range xs.length).map fun i => xs.getD i fill := by
  apply List.ext_getElem
  · simp
  · intro i hi _
    rw [List.getElem_map, List.getElem_range, List.getD_eq_getElem _ _ hi]

/-- The slots after placements into an empty list. -/
theorem placeAll_nil_eq_map (fill : α) (placements : List (Nat × α)) :
    placeAll fill [] placements =
      (List.range (extent placements)).map fun i => heldAfter i fill placements := by
  rw [eq_map_getD fill (placeAll fill [] placements), placeAll_length, List.length_nil,
    Nat.zero_max]
  apply List.map_congr_left
  intro i _
  exact getD_placeAll fill [] placements i

/-! ## Values given by their positions -/

section

variable {fill : α} {value : Nat → α} {placements : List (Nat × α)}

/-- A slot holds the value of its position, or what it held if nothing was placed
there. -/
theorem heldAfter_of (hvalue : ∀ p ∈ placements, p.2 = value p.1) (i : Nat) (held : α) :
    (i ∈ placements.map Prod.fst → heldAfter i held placements = value i) ∧
      (i ∉ placements.map Prod.fst → heldAfter i held placements = held) := by
  induction placements generalizing held with
  | nil => exact ⟨fun h => absurd h List.not_mem_nil, fun _ => rfl⟩
  | cons p placements ih =>
      have hp := hvalue p List.mem_cons_self
      have hrest := ih (fun q hq => hvalue q (List.mem_cons_of_mem _ hq))
      rw [List.map_cons, List.mem_cons, heldAfter_cons]
      constructor
      · intro hmem
        by_cases hlater : i ∈ placements.map Prod.fst
        · exact (hrest _).1 hlater
        · have hi : i = p.1 := hmem.resolve_right hlater
          rw [(hrest _).2 hlater, if_pos hi.symm, hp, hi]
      · intro hnot
        rw [not_or] at hnot
        rw [if_neg (Ne.symm hnot.1), (hrest held).2 hnot.2]

/-- A slot holds the value of its position if it was placed, and the filler if not. -/
theorem getD_placeAll_of (hvalue : ∀ p ∈ placements, p.2 = value p.1) (i : Nat) :
    (i ∈ placements.map Prod.fst → (placeAll fill [] placements).getD i fill = value i) ∧
      (i ∉ placements.map Prod.fst → (placeAll fill [] placements).getD i fill = fill) := by
  have hheld := heldAfter_of hvalue i fill
  rw [getD_placeAll]
  exact hheld

/-- No slot is left empty exactly if no position is missing below one at which a value
was placed. -/
theorem filled_iff (hvalue : ∀ p ∈ placements, p.2 = value p.1)
    (hne : ∀ p ∈ placements, p.2 ≠ fill) :
    (∀ x ∈ placeAll fill [] placements, x ≠ fill) ↔
      ∀ j ∈ placements.map Prod.fst, ∀ i < j, i ∈ placements.map Prod.fst := by
  rw [← forall_lt_extent_iff]
  have hlength : (placeAll fill [] placements).length = extent placements := by
    rw [placeAll_length, List.length_nil, Nat.zero_max]
  constructor
  · intro hfilled i hi
    by_contra hnot
    rw [← hlength] at hi
    apply hfilled _ (List.getElem_mem hi)
    rw [← List.getD_eq_getElem _ fill hi]
    exact (getD_placeAll_of hvalue i).2 hnot
  · intro hall x hx
    rcases List.getElem_of_mem hx with ⟨i, hi, rfl⟩
    have hmem := hall i (hlength ▸ hi)
    rw [← List.getD_eq_getElem _ fill hi, (getD_placeAll_of hvalue i).1 hmem]
    rcases List.mem_map.mp hmem with ⟨p, hp, rfl⟩
    rw [← hvalue p hp]
    exact hne p hp

/-- With every position below a bound placed and none at or above it, the slots are
the values in order. -/
theorem placeAll_eq_map {n : Nat} (hvalue : ∀ p ∈ placements, p.2 = value p.1)
    (hlt : ∀ p ∈ placements, p.1 < n) (hall : ∀ i < n, i ∈ placements.map Prod.fst) :
    placeAll fill [] placements = (List.range n).map value := by
  have hextent : extent placements = n := by
    apply Nat.le_antisymm (extent_le_iff.mpr hlt)
    cases n with
    | zero => exact Nat.zero_le _
    | succ n =>
        rcases List.mem_map.mp (hall n (Nat.lt_succ_self n)) with ⟨p, hp, hpn⟩
        have hbound := extent_le_iff.mp (Nat.le_refl (extent placements)) p hp
        omega
  rw [placeAll_nil_eq_map, hextent]
  apply List.map_congr_left
  intro i hi
  exact (heldAfter_of hvalue i fill).1 (hall i (List.mem_range.mp hi))

end

end Slots
