import IrohSync.Sync.Protocol

/-!
# The two receiving paths

An accepting peer records the changes of a received batch, while a connecting
peer applies them.  Recording advances the offset by the number of changes and
appends them to the log; applying raises the offset to the low 64 bits of the
largest identifier and drops the changes.

Main results:

- Theorem {lit}`latest_pushAll_eq_iff`: when pushes do not change what is read.
- Theorem {lit}`receivingPaths_agree_iff`: exactly when the paths agree.
-/

namespace IrohSync

open BoundedLog

/-- Agreement on a batch: both paths leave the same
offset and the same readable log, and applying the changes advances the offset
by their number, returns it and makes them readable. -/
structure PathsAgree (m : SyncManager) (batch : ChangeBatch) (localOffset : UInt64) : Prop where
  offset : (m.processMessage (.response batch) localOffset).1.offset =
    (m.applyChanges batch.changes).1.offset
  changes : ∀ o, (m.processMessage (.response batch) localOffset).1.getChangesSince o =
    (m.applyChanges batch.changes).1.getChangesSince o
  advance : (m.applyChanges batch.changes).1.offset.toNat =
    m.offset.toNat + batch.changes.length
  result : (m.applyChanges batch.changes).2 = .ok (m.applyChanges batch.changes).1.offset
  applied : Retained m.maxChanges.toNat batch.changes
    ((m.applyChanges batch.changes).1.getChangesSince m.offset)

/-- The batches on which the paths agree: the empty one, and those whose largest
identifier happens to be the advanced offset while the log, full or longer than
the offset, repeats the batch in what can be read of it. -/
def Agreeable (m : SyncManager) (cs : List Change) : Prop :=
  cs = [] ∨
    (((cs.map Change.seq).foldl max m.offset).toNat = m.offset.toNat + cs.length ∧
      (m.maxChanges.toNat ≤ m.changes.length ∨
        m.offset.toNat + cs.length ≤ m.changes.length) ∧
      latest (min (m.offset.toNat + cs.length) m.changes.length) (m.changes ++ cs) =
        latest (m.offset.toNat + cs.length) m.changes)

/-! ## Reading after either path -/

/-- Applying changes leaves the log as it is. -/
theorem applyChanges_getChangesSince (m : SyncManager) (cs : List Change) (o : UInt64) :
    (m.applyChanges cs).1.getChangesSince o =
      latest ((m.applyChanges cs).1.offset.toNat - o.toNat) m.changes :=
  getChangesSince_eq _ o

/-- Recording appends to the log. -/
theorem recordAll_getChangesSince (m : SyncManager) (cs : List Change) (o : UInt64) :
    (m.recordAll cs).getChangesSince o =
      latest ((m.recordAll cs).offset.toNat - o.toNat)
        (pushAll m.maxChanges.toNat m.changes cs) := by
  rw [getChangesSince_eq, recordAll_changes]

/-- The newest entries of a log are its newest entries after pushes only if the
log does not grow in the part that is read. -/
theorem latest_pushAll_eq_iff {n capacity : Nat} {log xs : List Change} (hxs : xs ≠ []) :
    latest n (pushAll capacity log xs) = latest n log ↔
      (capacity ≤ log.length ∨ n ≤ log.length) ∧
        latest (min n log.length) (log ++ xs) = latest n log := by
  have hpos := List.length_pos_iff.mpr hxs
  have hlen := pushAll_length capacity log xs
  rw [latest_pushAll]
  constructor
  · intro heq
    have hlengths := congrArg List.length heq
    simp only [latest_length, List.length_append] at hlengths
    have hgrow : capacity ≤ log.length ∨ n ≤ log.length := by omega
    refine ⟨hgrow, ?_⟩
    rwa [show min n (pushAll capacity log xs).length = min n log.length by omega] at heq
  · rintro ⟨hgrow, heq⟩
    rwa [show min n (pushAll capacity log xs).length = min n log.length by omega]

/-! ## Agreement -/

/-- The paths agree exactly if applying advances the offset by the number of
changes and recording does not change what is read from the start. -/
theorem pathsAgree_iff (m : SyncManager) (batch : ChangeBatch) (localOffset : UInt64) :
    PathsAgree m batch localOffset ↔
      (m.applyChanges batch.changes).1.offset.toNat = m.offset.toNat + batch.changes.length ∧
        latest (m.offset.toNat + batch.changes.length)
            (pushAll m.maxChanges.toNat m.changes batch.changes) =
          latest (m.offset.toNat + batch.changes.length) m.changes := by
  constructor
  · intro hagree
    have hchanges := hagree.changes 0
    have hoffset := hagree.offset
    rw [processMessage_response] at hchanges hoffset
    rw [recordAll_getChangesSince, applyChanges_getChangesSince, hoffset,
      hagree.advance] at hchanges
    exact ⟨hagree.advance, by simpa using hchanges⟩
  · rintro ⟨hadvance, hlatest⟩
    have hoffset : (m.applyChanges batch.changes).1.offset =
        m.offset + UInt64.ofNat batch.changes.length := by
      rw [← UInt64.toNat_inj, hadvance, UInt64.toNat_add, UInt64.toNat_ofNat']
      have hlt := (m.applyChanges batch.changes).1.offset.toNat_lt
      omega
    have hrecord :
        (m.recordAll batch.changes).offset = (m.applyChanges batch.changes).1.offset := by
      rw [recordAll_offset, hoffset]
    have hread : ∀ o, (m.recordAll batch.changes).getChangesSince o =
        (m.applyChanges batch.changes).1.getChangesSince o := by
      intro o
      have hcut := congrArg (latest (m.offset.toNat + batch.changes.length - o.toNat)) hlatest
      rw [latest_latest, latest_latest, Nat.min_eq_left (Nat.sub_le _ _)] at hcut
      rw [recordAll_getChangesSince, applyChanges_getChangesSince, hrecord, hadvance]
      exact hcut
    refine ⟨hrecord, hread, hadvance, by rw [applyChanges_result, hoffset], ?_⟩
    rw [← hread, recordAll_getChangesSince, hrecord, hadvance, Nat.add_sub_cancel_left]
    exact retained_latest_pushAll _ _ _

/-- The two paths agree on a batch exactly if it is agreeable. -/
theorem receivingPaths_agree_iff (m : SyncManager) (batch : ChangeBatch) (localOffset : UInt64) :
    PathsAgree m batch localOffset ↔ Agreeable m batch.changes := by
  rw [pathsAgree_iff, applyChanges_offset, Agreeable]
  by_cases hnil : batch.changes = []
  · simp [hnil]
  · rw [latest_pushAll_eq_iff hnil]
    simp only [hnil, false_or]

/-- A batch of one change with a zero identifier: the accepting side has it in
its log at offset 1, the connecting side stays at offset 0 and has nothing. -/
theorem not_pathsAgree_sample :
    ¬ PathsAgree (SyncManager.new 100) ⟨1, [sampleChange], true⟩ 0 := by
  intro hagree
  have hadvance := hagree.advance
  revert hadvance
  decide

end IrohSync
