import IrohSync.Lib.BoundedLog
import IrohSync.Change
import IrohSync.Error

/-!
# The sync manager

The in-memory change log of a peer and its offset counter.  Counters are 64-bit
words that wrap around as the atomic operations of the source do.  The table of
peer states is left out: none of these operations reads or writes it.

Main results:

- Theorems {lit}`recordAll_offset` and {lit}`recordAll_changes`: the state after
  any number of recorded changes.
- Theorem {lit}`getChangesSince_eq`: a read returns the newest changes.
-/

namespace IrohSync

open BoundedLog

/-! ## Operations -/

/-- Manages change tracking. -/
structure SyncManager where
  offset : UInt64
  changes : List Change
  maxChanges : UInt64
deriving DecidableEq, Repr

/-- Create a new sync manager. -/
def SyncManager.new (maxChanges : UInt64) : SyncManager where
  offset := 0
  changes := []
  maxChanges := maxChanges

/-- Record a new change and return its offset. -/
def SyncManager.recordChange (m : SyncManager) (change : Change) : SyncManager × UInt64 :=
  ({ m with offset := m.offset + 1, changes := push m.maxChanges.toNat m.changes change },
    m.offset)

/-- Get all changes since a given offset. -/
def SyncManager.getChangesSince (m : SyncManager) (offset : UInt64) : List Change :=
  if m.offset ≤ offset then []
  else
    let count := (m.offset - offset).toNat
    let skipCount := m.changes.length - count
    m.changes.drop skipCount

/-- The low 64 bits of a change's identifier. -/
def Change.seq (change : Change) : UInt64 :=
  UInt64.ofNat change.id.toU128Le

/-- Apply remote changes to the local state: a local count goes up with every
change, and the offset is raised to the identifiers; the log is not touched. -/
def SyncManager.applyChanges (m : SyncManager) (changes : List Change) :
    SyncManager × Except Error UInt64 :=
  let final := changes.foldl
    (fun (s : UInt64 × UInt64) change => (max s.1 change.seq, s.2 + 1)) (m.offset, m.offset)
  ({ m with offset := final.1 }, .ok final.2)

/-- Record changes one after the other. -/
def SyncManager.recordAll (m : SyncManager) (changes : List Change) : SyncManager :=
  changes.foldl (fun m change => (m.recordChange change).1) m

/-! ## The state after recording -/

@[simp]
theorem recordAll_nil (m : SyncManager) : m.recordAll [] = m :=
  rfl

@[simp]
theorem recordAll_cons (m : SyncManager) (c : Change) (cs : List Change) :
    m.recordAll (c :: cs) = (m.recordChange c).1.recordAll cs :=
  rfl

theorem recordAll_append (m : SyncManager) (cs cs' : List Change) :
    m.recordAll (cs ++ cs') = (m.recordAll cs).recordAll cs' :=
  List.foldl_append

/-- The offset counts the recorded changes. -/
theorem recordAll_offset (m : SyncManager) (cs : List Change) :
    (m.recordAll cs).offset = m.offset + UInt64.ofNat cs.length := by
  induction cs generalizing m with
  | nil => simp
  | cons c cs ih =>
      rw [recordAll_cons, ih, SyncManager.recordChange, List.length_cons, Nat.add_comm,
        UInt64.ofNat_add, ← UInt64.add_assoc]
      rfl

/-- The log is the bounded log of the recorded changes. -/
theorem recordAll_changes (m : SyncManager) (cs : List Change) :
    (m.recordAll cs).changes = pushAll m.maxChanges.toNat m.changes cs := by
  induction cs generalizing m with
  | nil => rfl
  | cons c cs ih => rw [recordAll_cons, ih, SyncManager.recordChange, pushAll_cons]

/-- A read returns as many of the newest changes as the offset is ahead. -/
theorem getChangesSince_eq (m : SyncManager) (offset : UInt64) :
    m.getChangesSince offset = latest (m.offset.toNat - offset.toNat) m.changes := by
  by_cases hle : m.offset ≤ offset
  · have hle' : m.offset.toNat ≤ offset.toNat := UInt64.le_iff_toNat_le.mp hle
    rw [SyncManager.getChangesSince, if_pos hle, latest, Nat.sub_eq_zero_of_le hle',
      Nat.sub_zero, List.drop_length]
  · have hlt : offset ≤ m.offset := UInt64.le_of_lt (UInt64.not_le.mp hle)
    rw [SyncManager.getChangesSince, if_neg hle, latest, UInt64.toNat_sub_of_le _ _ hlt]

/-- The offset after applying changes. -/
theorem applyChanges_offset (m : SyncManager) (cs : List Change) :
    (m.applyChanges cs).1.offset = (cs.map Change.seq).foldl max m.offset := by
  have hfold : ∀ s : UInt64 × UInt64, (cs.foldl
      (fun (s : UInt64 × UInt64) change => (max s.1 change.seq, s.2 + 1)) s).1 =
      (cs.map Change.seq).foldl max s.1 := by
    induction cs with
    | nil => exact fun _ => rfl
    | cons c cs ih => exact fun s => ih _
  exact hfold _

/-- The offset that applying changes returns. -/
theorem applyChanges_result (m : SyncManager) (cs : List Change) :
    (m.applyChanges cs).2 = .ok (m.offset + UInt64.ofNat cs.length) := by
  have hfold : ∀ s : UInt64 × UInt64, (cs.foldl
      (fun (s : UInt64 × UInt64) change => (max s.1 change.seq, s.2 + 1)) s).2 =
      s.2 + UInt64.ofNat cs.length := by
    induction cs with
    | nil => simp
    | cons c cs ih =>
        intro s
        rw [List.foldl_cons, ih, List.length_cons, Nat.add_comm, UInt64.ofNat_add,
          ← UInt64.add_assoc]
        rfl
  exact congrArg Except.ok (hfold _)

end IrohSync
