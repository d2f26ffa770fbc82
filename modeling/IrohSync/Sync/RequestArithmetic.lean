import IrohSync.Lib.Checked
import IrohSync.Sync.Offsets
import IrohSync.Sync.Protocol

/-!
# The arithmetic of a request

The offset of a manager and the length of its log have nothing to do with each other once
remote identifiers were applied or a snapshot was restored, and the offset of a request is
chosen by the sender.  Here a request is answered with operations that have no value where
those of the source would overflow, and the answer is the same.

Main results:

- Theorem {lit}`answer_offset`: the offset of a response, as a number.
- Theorem {lit}`request_arithmetic`: in every state every request is answered without an
  overflow, and the offset of the response lies between that of the request and the
  server's.
-/

namespace IrohSync

open BoundedLog

/-! ## Checked answers -/

/-- Get all changes since a given offset, with checked operations. -/
def SyncManager.checkedGetChangesSince (m : SyncManager) (offset : UInt64) :
    Option (List Change) :=
  if m.offset ≤ offset then some []
  else do
    let count ← Checked.sub m.offset offset
    -- the number to skip is a saturating difference in the source
    Checked.skip m.changes (m.changes.length - count.toNat)

/-- The batch that answers a request, with checked operations. -/
def SyncManager.checkedAnswer (m : SyncManager) (offset : UInt64) (limit : Option UInt64) :
    Option ChangeBatch := do
  let changes ← m.checkedGetChangesSince offset
  let changes := truncate changes limit
  let length ← Checked.length changes
  let newOffset ← Checked.add offset length
  let isFinal := changes.isEmpty || decide (m.offset ≤ newOffset)
  return { offset := newOffset, changes := changes, isFinal := isFinal }

/-! ## One request -/

variable (m : SyncManager) (offset : UInt64) (limit : Option UInt64)

/-- A page has no more changes than the offset is ahead. -/
theorem page_length_le :
    (truncate (m.getChangesSince offset) limit).length ≤ m.offset.toNat - offset.toNat := by
  have hfront := truncate_prefix (m.getChangesSince offset) limit
  have hpage := hfront.length_le
  rw [getChangesSince_eq, latest_length, ← getChangesSince_eq] at hpage
  exact hpage.trans (Nat.min_le_left _ _)

/-- So its length is exact as a word. -/
theorem page_length_toNat :
    (UInt64.ofNat (truncate (m.getChangesSince offset) limit).length).toNat =
      (truncate (m.getChangesSince offset) limit).length := by
  have hpage := page_length_le m offset limit
  have hlt := m.offset.toNat_lt
  exact UInt64.toNat_ofNat_of_lt' (by simp only [UInt64.size]; omega)

/-- The sum of the offset and the length of the page does not overflow. -/
theorem offset_add_page_lt :
    offset.toNat + (UInt64.ofNat (truncate (m.getChangesSince offset) limit).length).toNat <
      2 ^ 64 := by
  have hpage := page_length_le m offset limit
  have hlt := m.offset.toNat_lt
  have hlt' := offset.toNat_lt
  rw [page_length_toNat]
  omega

/-- The offset of a response is that of the request and the length of the page. -/
theorem answer_offset :
    (m.answer offset limit).offset.toNat =
      offset.toNat + (m.answer offset limit).changes.length := by
  have hsum := Checked.toNat_add (offset_add_page_lt m offset limit)
  rw [page_length_toNat] at hsum
  exact hsum

/-- Nothing goes wrong when changes are read. -/
theorem checkedGetChangesSince_eq :
    m.checkedGetChangesSince offset = some (m.getChangesSince offset) := by
  unfold SyncManager.checkedGetChangesSince SyncManager.getChangesSince
  by_cases hle : m.offset ≤ offset
  · rw [if_pos hle, if_pos hle]
  · have hlt : offset ≤ m.offset := UInt64.le_of_lt (UInt64.not_le.mp hle)
    rw [if_neg hle, if_neg hle, Checked.sub_eq hlt]
    exact Checked.skip_eq (Nat.sub_le _ _)

/-- Nor when the request is answered. -/
theorem checkedAnswer_eq : m.checkedAnswer offset limit = some (m.answer offset limit) := by
  have hpage := page_length_le m offset limit
  have hlt := m.offset.toNat_lt
  have hlength : (truncate (m.getChangesSince offset) limit).length < 2 ^ 64 := by omega
  have hsum := Checked.add_eq (offset_add_page_lt m offset limit)
  simp only [SyncManager.checkedAnswer, checkedGetChangesSince_eq, Checked.length_eq hlength,
    hsum, Option.bind_eq_bind, Option.bind_some, SyncManager.answer]
  rfl

/-- Whatever the offset and the log of a manager are, a request with any offset and limit is
answered without an overflow, an underflow or a skip out of range, and the offset of the
response lies between that of the request and the greater one of it and the server's. -/
theorem request_arithmetic (localOffset : UInt64) :
    ∃ batch, m.checkedAnswer offset limit = some batch ∧
      m.processMessage (.request offset limit) localOffset = (m, .response batch) ∧
      offset ≤ batch.offset ∧ batch.offset ≤ max offset m.offset := by
  have hoffset := answer_offset m offset limit
  have hpage : (m.answer offset limit).changes.length ≤ m.offset.toNat - offset.toNat :=
    page_length_le m offset limit
  refine ⟨m.answer offset limit, checkedAnswer_eq m offset limit,
    processMessage_request m offset limit localOffset, ?_, ?_⟩
  · rw [UInt64.le_iff_toNat_le]
    omega
  · rw [UInt64.le_iff_toNat_le, toNat_max]
    omega

end IrohSync
