import Mathlib.Algebra.Order.Ring.Nat
import Mathlib.Data.List.ReduceOption
import IrohSync.Lib.Checked
import IrohSync.Lib.Machine
import IrohSync.Sync.Manager

/-!
# Offsets under remote identifiers

Recording a change moves the offset up by one, modulo {lit}`2 ^ 64`.  Applying
remote changes raises the offset to the low 64 bits of their identifiers, which
the sender of the changes chooses.  The counter is only touched by atomic
operations, one for each recorded and one for each applied change, so that calls
of several threads act on it as some run of single calls does.

Main results:

- Theorem {lit}`neverDecreases_iff`: when the offset of a manager in any state
  never decreases.
- Theorem {lit}`NeverDecreases.pairwise_returnedOffsets`: offsets are then
  returned in strictly increasing order.
- Theorem {lit}`offsets_never_go_back_iff`: both for a new manager.
-/

namespace IrohSync

open Machine

/-! ## Runs -/

/-- A call that moves the offset. -/
inductive OffsetCall where
  | recordChange (change : Change)
  | applyChanges (changes : List Change)

/-- The manager under such calls; only recording returns an offset of the log. -/
def offsetMachine : Machine SyncManager OffsetCall (Option UInt64) where
  next m call :=
    match call with
    | .recordChange c => (m.recordChange c).1
    | .applyChanges cs => (m.applyChanges cs).1
  answer m call :=
    match call with
    | .recordChange c => some (m.recordChange c).2
    | .applyChanges _ => none

/-- The offsets that the recordings of a run return. -/
def returnedOffsets (m : SyncManager) (calls : List OffsetCall) : List UInt64 :=
  (offsetMachine.answers m calls).reduceOption

/-- No call of a run lowers the offset. -/
def NeverDecreases (m : SyncManager) (calls : List OffsetCall) : Prop :=
  offsetMachine.Along (fun m call => m.offset ≤ (offsetMachine.next m call).offset) m calls

/-- How many changes a run records. -/
def recordCount : List OffsetCall → Nat
  | [] => 0
  | .recordChange _ :: calls => recordCount calls + 1
  | .applyChanges _ :: calls => recordCount calls

/-- Behind every applied identifier there is room for the changes that are
recorded later. -/
def OffsetsFit : List OffsetCall → Prop
  | [] => True
  | .recordChange _ :: calls => OffsetsFit calls
  | .applyChanges cs :: calls =>
      (∀ c ∈ cs, c.seq.toNat + recordCount calls < 2 ^ 64) ∧ OffsetsFit calls

theorem recordCount_le_length (calls : List OffsetCall) : recordCount calls ≤ calls.length := by
  induction calls with
  | nil => exact Nat.le_refl 0
  | cons call calls ih =>
      cases call with
      | recordChange c => exact Nat.succ_le_succ ih
      | applyChanges cs => exact Nat.le_succ_of_le ih

/-! ## Raising to a maximum -/

/-- The greater of two words. -/
theorem toNat_max (a b : UInt64) : (max a b).toNat = max a.toNat b.toNat := by
  have hmax : max a b = if a ≤ b then b else a := rfl
  rw [hmax]
  split_ifs with hle
  · exact (Nat.max_eq_right (UInt64.le_iff_toNat_le.mp hle)).symm
  · have hge : b ≤ a := UInt64.le_of_lt (UInt64.not_le.mp hle)
    exact (Nat.max_eq_left (UInt64.le_iff_toNat_le.mp hge)).symm

/-- A maximum leaves room exactly if each of its arguments does. -/
theorem foldl_max_add_lt_iff (xs : List UInt64) (a : UInt64) (room bound : Nat) :
    (xs.foldl max a).toNat + room < bound ↔
      a.toNat + room < bound ∧ ∀ x ∈ xs, x.toNat + room < bound := by
  induction xs generalizing a with
  | nil => simp
  | cons x xs ih =>
      have hmax : (max a x).toNat + room < bound ↔
          a.toNat + room < bound ∧ x.toNat + room < bound := by
        rw [toNat_max]
        omega
      rw [List.foldl_cons, ih, hmax, List.forall_mem_cons, and_assoc]

theorem le_foldl_max (xs : List UInt64) (a : UInt64) : a ≤ xs.foldl max a := by
  induction xs generalizing a with
  | nil => exact UInt64.le_refl a
  | cons x xs ih =>
      have hle : a ≤ max a x := by
        rw [UInt64.le_iff_toNat_le, toNat_max]
        exact Nat.le_max_left _ _
      exact UInt64.le_trans hle (ih _)

/-! ## When the offset never decreases -/

/-- The offset never decreases exactly if there is room for the recorded changes
above where it starts and above every identifier it is raised to. -/
theorem neverDecreases_iff (m : SyncManager) (calls : List OffsetCall) :
    NeverDecreases m calls ↔
      m.offset.toNat + recordCount calls < 2 ^ 64 ∧ OffsetsFit calls := by
  unfold NeverDecreases
  induction calls generalizing m with
  | nil => simpa [recordCount, OffsetsFit] using m.offset.toNat_lt
  | cons call calls ih =>
      rw [along_cons, ih]
      cases call with
      | recordChange c =>
          simp only [offsetMachine, SyncManager.recordChange, Checked.le_add_one_iff,
            recordCount, OffsetsFit]
          constructor
          · rintro ⟨hroom, hrest, hfit⟩
            rw [Checked.toNat_add_one hroom] at hrest
            exact ⟨by omega, hfit⟩
          · rintro ⟨hroom, hfit⟩
            have hfirst : m.offset.toNat + 1 < 2 ^ 64 := by omega
            rw [Checked.toNat_add_one hfirst]
            exact ⟨hfirst, by omega, hfit⟩
      | applyChanges cs =>
          simp only [offsetMachine, applyChanges_offset, le_foldl_max, true_and,
            foldl_max_add_lt_iff, List.forall_mem_map, recordCount, OffsetsFit, and_assoc]

/-- No offset below the current one is returned again, and all are returned in
strictly increasing order. -/
theorem NeverDecreases.pairwise_returnedOffsets {m : SyncManager} {calls : List OffsetCall}
    (h : NeverDecreases m calls) :
    (∀ o ∈ returnedOffsets m calls, m.offset ≤ o) ∧
      (returnedOffsets m calls).Pairwise (· < ·) := by
  induction calls generalizing m with
  | nil => exact ⟨by simp [returnedOffsets], List.Pairwise.nil⟩
  | cons call calls ih =>
      rcases h with ⟨hfirst, hrest⟩
      rcases ih hrest with ⟨hle, hpairwise⟩
      cases call with
      | recordChange c =>
          have hreturned : returnedOffsets m (.recordChange c :: calls) =
              m.offset :: returnedOffsets (m.recordChange c).1 calls :=
            rfl
          have hroom := (Checked.le_add_one_iff m.offset).mp hfirst
          -- what comes later is at least the next offset
          have hlt : ∀ o ∈ returnedOffsets (m.recordChange c).1 calls, m.offset < o := by
            intro o ho
            have hnext := UInt64.le_iff_toNat_le.mp (hle o ho)
            simp only [offsetMachine, SyncManager.recordChange] at hnext
            rw [Checked.toNat_add_one hroom] at hnext
            exact UInt64.lt_iff_toNat_lt.mpr (by omega)
          rw [hreturned]
          refine ⟨?_, List.pairwise_cons.mpr ⟨hlt, hpairwise⟩⟩
          intro o ho
          rcases List.mem_cons.mp ho with rfl | ho
          · exact UInt64.le_refl _
          · exact UInt64.le_of_lt (hlt o ho)
      | applyChanges cs =>
          refine ⟨fun o ho => ?_, hpairwise⟩
          exact UInt64.le_trans hfirst (hle o ho)

/-- The offset of a new manager never decreases and no offset is returned twice,
in exactly the runs of fewer than {lit}`2 ^ 64` calls that leave room behind every
applied identifier for the changes recorded later. -/
theorem offsets_never_go_back_iff (maxChanges : UInt64) (calls : List OffsetCall)
    (hcalls : calls.length < 2 ^ 64) :
    (NeverDecreases (SyncManager.new maxChanges) calls ∧
        (returnedOffsets (SyncManager.new maxChanges) calls).Nodup) ↔ OffsetsFit calls := by
  have hcount := recordCount_le_length calls
  have hstart : (SyncManager.new maxChanges).offset.toNat + recordCount calls < 2 ^ 64 := by
    simp only [SyncManager.new, UInt64.toNat_zero]
    omega
  constructor
  · rintro ⟨hmono, _⟩
    exact ((neverDecreases_iff _ _).mp hmono).2
  · intro hfit
    have hmono := (neverDecreases_iff _ _).mpr ⟨hstart, hfit⟩
    refine ⟨hmono, hmono.pairwise_returnedOffsets.2.imp ?_⟩
    intro o o' hlt
    exact UInt64.ne_of_lt hlt

/-- The criterion for one recorded and one applied change. -/
theorem offsets_never_go_back_iff_sample :
    (NeverDecreases (SyncManager.new 10)
          [.recordChange sampleChange, .applyChanges [sampleChange]] ∧
        (returnedOffsets (SyncManager.new 10)
          [.recordChange sampleChange, .applyChanges [sampleChange]]).Nodup) ↔
      OffsetsFit [.recordChange sampleChange, .applyChanges [sampleChange]] :=
  offsets_never_go_back_iff 10 [.recordChange sampleChange, .applyChanges [sampleChange]]
    (by decide)

/-- A change whose identifier has all bits set. -/
def topChange : Change :=
  Change.delete ⟨List.replicate 16 0xFF, rfl⟩ 2 "n" "d" [9]

/-- Once an identifier with all bits set was applied, recording a change wraps
the offset around to 0, and offset 0 is returned a second time. -/
theorem not_neverDecreases_topChange :
    ¬ (NeverDecreases (SyncManager.new 10) [.recordChange sampleChange,
          .applyChanges [topChange], .recordChange sampleChange, .recordChange otherChange] ∧
        (returnedOffsets (SyncManager.new 10) [.recordChange sampleChange,
          .applyChanges [topChange], .recordChange sampleChange,
          .recordChange otherChange]).Nodup) := by
  rintro ⟨_, hnodup⟩
  exact absurd hnodup (by decide)

end IrohSync
