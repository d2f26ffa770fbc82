import IrohSync.Sync.RecordedLog

/-!
# Final answers

A response says that it is final if its page is empty or its offset has reached that of the
server.  The page is looked at after it was cut to the limit, so that a request for no
changes at all gets a final answer however much is left.

Main results:

- Theorem {lit}`Numbered.forall_lt_iff`: when all retained changes were recorded below an
  offset.
- Theorem {lit}`Numbered.leavesNothing_iff`: when a final answer leaves nothing behind it.
- Theorem {lit}`final_answer_iff`: the same for any number of recorded changes.
-/

namespace IrohSync

open BoundedLog

/-- If an answer is final, no retained change was recorded at its offset or later. -/
def LeavesNothing (l : RecordedLog) (batch : ChangeBatch) : Prop :=
  batch.isFinal = true → ∀ entry ∈ l.entries, entry.1 < batch.offset

/-- The log is not longer than the offset, so that it holds no change from before the offset
wrapped, and a request for no changes comes only when none is new; or the limit ends the page
before the newest change. -/
def AsksRight (l : RecordedLog) (offset : UInt64) (limit : Option UInt64) : Prop :=
  (l.entries.length ≤ l.offset.toNat ∧
      (limit = some 0 → l.entries = [] ∨ l.offset ≤ offset)) ∨
    ∃ n, limit = some n ∧ 0 < n.toNat ∧ n.toNat < l.offset.toNat - offset.toNat

/-- All retained changes were recorded below an offset exactly if there are none, or none
from before the offset of the log wrapped, and that offset is not greater. -/
theorem Numbered.forall_lt_iff {l : RecordedLog} {n : Nat} (h : Numbered l n)
    (hoffset : l.offset = UInt64.ofNat n) (bound : UInt64) :
    (∀ entry ∈ l.entries, entry.1 < bound) ↔
      l.entries = [] ∨ (l.entries.length ≤ l.offset.toNat ∧ l.offset ≤ bound) := by
  have hle := h.length_le
  have hmod : l.offset.toNat = n % 2 ^ 64 := by
    rw [hoffset, UInt64.toNat_ofNat']
  have hbound := bound.toNat_lt
  have hnumbers : (∀ entry ∈ l.entries, entry.1 < bound) ↔
      ∀ i, n - l.entries.length ≤ i → i < n → i % 2 ^ 64 < bound.toNat := by
    have hmap : (∀ entry ∈ l.entries, entry.1 < bound) ↔
        ∀ o ∈ l.entries.map Prod.fst, o < bound := by
      rw [List.forall_mem_map]
    rw [hmap, h.offsets]
    simp only [List.forall_mem_map, List.mem_range'_1, UInt64.lt_iff_toNat_lt,
      UInt64.toNat_ofNat', and_imp]
    exact forall₂_congr fun i _ => by rw [Nat.sub_add_cancel hle]
  rw [hnumbers, UInt64.le_iff_toNat_le]
  by_cases hempty : l.entries = []
  · refine iff_of_true (fun i hi hlt => ?_) (Or.inl hempty)
    rw [hempty, List.length_nil] at hi
    omega
  · have hpos := List.length_pos_iff.mpr hempty
    rw [or_iff_right hempty]
    constructor
    · intro hall
      by_cases hunwrapped : l.entries.length ≤ l.offset.toNat
      · -- the newest change was recorded right below the offset
        have hlast := hall (n - 1) (by omega) (by omega)
        exact ⟨hunwrapped, by omega⟩
      · -- the last offset of the round before is retained
        have hlast := hall (n - l.offset.toNat - 1) (by omega) (by omega)
        omega
    · rintro ⟨hunwrapped, hreached⟩ i hi hlt
      omega

/-- The length of a page. -/
theorem page_length (l : RecordedLog) (offset : UInt64) :
    (l.page offset none).length = min (l.offset.toNat - offset.toNat) l.entries.length ∧
      ∀ n, (l.page offset (some n)).length =
        min n.toNat (min (l.offset.toNat - offset.toNat) l.entries.length) :=
  ⟨since_length l offset, fun n => by rw [RecordedLog.page, List.length_take, since_length]⟩

/-- An answer is final exactly if its page is empty or reaches the offset of the server. -/
theorem answer_isFinal_iff (l : RecordedLog) (offset : UInt64) (limit : Option UInt64) :
    (l.manager.answer offset limit).isFinal = true ↔
      (l.page offset limit).length = 0 ∨
        l.offset.toNat ≤ offset.toNat + (l.page offset limit).length := by
  have hoffset := answer_offset l.manager offset limit
  have hchanges : (l.manager.answer offset limit).changes =
      (l.page offset limit).map Prod.snd := (page_map l offset limit).symm
  have hfinal : (l.manager.answer offset limit).isFinal =
      ((l.manager.answer offset limit).changes.isEmpty ||
        decide (l.offset ≤ (l.manager.answer offset limit).offset)) := rfl
  rw [hfinal, Bool.or_eq_true, decide_eq_true_iff, List.isEmpty_iff_length_eq_zero,
    UInt64.le_iff_toNat_le, hoffset, hchanges, List.length_map]

/-- The answer to a request leaves nothing behind it if it is final, exactly if the request
is right. -/
theorem Numbered.leavesNothing_iff {l : RecordedLog} {n : Nat} (h : Numbered l n)
    (hoffset : l.offset = UInt64.ofNat n) (offset : UInt64) (limit : Option UInt64) :
    LeavesNothing l (l.manager.answer offset limit) ↔ AsksRight l offset limit := by
  have hbatch : (l.manager.answer offset limit).offset.toNat =
      offset.toNat + (l.page offset limit).length := by
    rw [answer_offset, ← List.length_map (f := Prod.snd), page_map]
    rfl
  rw [LeavesNothing, AsksRight, answer_isFinal_iff, h.forall_lt_iff hoffset,
    UInt64.le_iff_toNat_le, hbatch, UInt64.le_iff_toNat_le]
  by_cases hempty : l.entries = []
  · refine iff_of_true (fun _ => Or.inl hempty) (Or.inl ⟨?_, fun _ => Or.inl hempty⟩)
    rw [hempty]
    exact Nat.zero_le _
  · have hpos := List.length_pos_iff.mpr hempty
    rw [or_iff_right hempty, or_iff_right hempty]
    cases limit with
    | none =>
        have hlength := (page_length l offset).1
        simp only [reduceCtorEq, false_implies, and_true, false_and, exists_false, or_false]
        omega
    | some limit =>
        have hlength := (page_length l offset).2 limit
        have hzero : some limit = some 0 ↔ limit.toNat = 0 := by
          rw [Option.some.injEq, ← UInt64.toNat_inj, UInt64.toNat_zero]
        simp only [Option.some.injEq, exists_eq_left'] at hzero ⊢
        rw [hzero]
        omega

/-- However many changes were recorded, a request is answered with a batch that is final only
if the log retains no change from its offset on, exactly if the request is right. -/
theorem final_answer_iff (maxChanges : UInt64) (cs : List Change) (offset : UInt64)
    (limit : Option UInt64) (localOffset : UInt64) :
    ∃ batch, ((SyncManager.new maxChanges).recordAll cs).processMessage
          (.request offset limit) localOffset =
        ((SyncManager.new maxChanges).recordAll cs, .response batch) ∧
      (LeavesNothing ((RecordedLog.new maxChanges).recordAll cs) batch ↔
        AsksRight ((RecordedLog.new maxChanges).recordAll cs) offset limit) := by
  rcases numbered_recordAll (numbered_new maxChanges) rfl cs with ⟨hnumbered, hoffset⟩
  have hmanager : (SyncManager.new maxChanges).recordAll cs =
      ((RecordedLog.new maxChanges).recordAll cs).manager :=
    (manager_recordAll (RecordedLog.new maxChanges) cs).symm
  refine ⟨_, processMessage_request _ offset limit localOffset, ?_⟩
  rw [hmanager]
  exact hnumbered.leavesNothing_iff hoffset offset limit

/-- One change is recorded, and a request for none of the changes from the start on is told
that there are no more. -/
theorem not_leavesNothing_zero :
    ∃ batch, ((SyncManager.new 10).recordAll [sampleChange]).processMessage
          (.request 0 (some 0)) 1 =
        ((SyncManager.new 10).recordAll [sampleChange], .response batch) ∧
      ¬ LeavesNothing ((RecordedLog.new 10).recordAll [sampleChange]) batch := by
  refine ⟨⟨0, [], true⟩, by decide, fun h => ?_⟩
  exact absurd (h rfl (0, sampleChange) (by decide)) (by decide)

end IrohSync
