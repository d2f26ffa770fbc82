import IrohSync.Lib.Machine
import IrohSync.Sync.PeerStates
import IrohSync.Sync.Protocol

/-!
# What the log retains

The log of a manager that only records holds the newest changes, as many as its capacity
allows, and a read from an offset returns those of them from that offset on.  Recording
drops one change for each that it adds; a restore puts in its place whatever the snapshot
holds.

Main results:

- Theorem {lit}`suffix_law`: the log and the counter after any recordings, and what is read of
  them after fewer than {lit}`2 ^ 64`.
- Theorem {lit}`log_bounded_iff`: in which runs the log keeps to its capacity.
-/

namespace IrohSync

open BoundedLog Machine

/-! ## Recording -/

/-- A call that records changes. -/
inductive Recording where
  | recordChange (change : Change)
  | response (batch : ChangeBatch) (localOffset : UInt64)

/-- The changes that a call records. -/
def Recording.changes : Recording → List Change
  | .recordChange c => [c]
  | .response batch _ => batch.changes

/-- The changes that calls record. -/
def recordedBy (calls : List Recording) : List Change :=
  calls.flatMap Recording.changes

/-- What recording a change returns for each of the changes recorded in turn. -/
def SyncManager.recordOffsets : SyncManager → List Change → List UInt64
  | _, [] => []
  | m, c :: cs => (m.recordChange c).2 :: (m.recordChange c).1.recordOffsets cs

/-- The manager under calls that record, with the offsets of the recorded changes. -/
def recordings : Machine SyncManager Recording (List UInt64) where
  next m call :=
    match call with
    | .recordChange c => (m.recordChange c).1
    | .response batch localOffset => (m.processMessage (.response batch) localOffset).1
  answer m call := m.recordOffsets call.changes

theorem recordings_next (m : SyncManager) (call : Recording) :
    recordings.next m call = m.recordAll call.changes := by
  cases call with
  | recordChange c => rfl
  | response batch localOffset => rfl

/-- A run of calls records all their changes. -/
theorem recordings_run (m : SyncManager) (calls : List Recording) :
    recordings.run m calls = m.recordAll (recordedBy calls) := by
  induction calls generalizing m with
  | nil => rfl
  | cons call calls ih => rw [run_cons, ih, recordings_next, ← recordAll_append]; rfl

theorem recordOffsets_append (m : SyncManager) (cs cs' : List Change) :
    m.recordOffsets (cs ++ cs') = m.recordOffsets cs ++ (m.recordAll cs).recordOffsets cs' := by
  induction cs generalizing m with
  | nil => rfl
  | cons c cs ih => rw [List.cons_append, SyncManager.recordOffsets, ih]; rfl

/-- The offsets of a run are those of its changes. -/
theorem recordings_answers (m : SyncManager) (calls : List Recording) :
    (recordings.answers m calls).flatten = m.recordOffsets (recordedBy calls) := by
  induction calls generalizing m with
  | nil => rfl
  | cons call calls ih =>
      rw [answers_cons, List.flatten_cons, ih, recordings_next]
      exact (recordOffsets_append m call.changes (recordedBy calls)).symm

/-- Offsets count up from that of the manager. -/
theorem recordOffsets_eq (m : SyncManager) (cs : List Change) :
    m.recordOffsets cs = (List.range cs.length).map fun i => m.offset + UInt64.ofNat i := by
  induction cs generalizing m with
  | nil => rfl
  | cons c cs ih =>
      rw [SyncManager.recordOffsets, ih, List.length_cons, List.range_succ_eq_map, List.map_cons,
        List.map_map]
      congr 1
      · simp [SyncManager.recordChange]
      · apply List.map_congr_left
        intro i _
        simp only [SyncManager.recordChange, Function.comp_apply, Nat.succ_eq_add_one]
        rw [Nat.add_comm, UInt64.ofNat_add, ← UInt64.add_assoc]
        rfl

/-! ## The suffix law -/

/-- The suffix law for a manager that recorded changes: their offsets are their numbers, the
offset counts them, the log holds the newest of them, and a read returns those of the
retained ones whose number is not below the offset that is read from. -/
structure SuffixLaw (maxChanges : UInt64) (calls : List Recording) : Prop where
  returned : (recordings.answers (.new maxChanges) calls).flatten.map UInt64.toNat =
    List.range (recordedBy calls).length
  offset : (recordings.run (.new maxChanges) calls).offset.toNat = (recordedBy calls).length
  retained : (recordings.run (.new maxChanges) calls).changes = (recordedBy calls).drop
    ((recordedBy calls).length - min (recordedBy calls).length maxChanges.toNat)
  since : ∀ o, (recordings.run (.new maxChanges) calls).getChangesSince o =
    (recordedBy calls).drop (max o.toNat
      ((recordedBy calls).length - min (recordedBy calls).length maxChanges.toNat))

/-- What holds of any number of recorded changes: their offsets are their numbers and the offset
counts them, both up to what the counter can hold, and the log holds the newest of them. -/
structure CountsModulo (maxChanges : UInt64) (calls : List Recording) : Prop where
  returned : (recordings.answers (.new maxChanges) calls).flatten.map UInt64.toNat =
    (List.range (recordedBy calls).length).map (· % 2 ^ 64)
  offset : (recordings.run (.new maxChanges) calls).offset.toNat =
    (recordedBy calls).length % 2 ^ 64
  retained : (recordings.run (.new maxChanges) calls).changes = (recordedBy calls).drop
    ((recordedBy calls).length - min (recordedBy calls).length maxChanges.toNat)

theorem countsModulo (maxChanges : UInt64) (calls : List Recording) :
    CountsModulo maxChanges calls := by
  have hrun := recordings_run (.new maxChanges) calls
  have hanswers := recordings_answers (.new maxChanges) calls
  constructor
  · rw [hanswers, recordOffsets_eq, List.map_map]
    refine List.map_congr_left fun i _ => ?_
    rw [Function.comp_apply, SyncManager.new, UInt64.zero_add, UInt64.toNat_ofNat']
  · rw [hrun, recordAll_offset, SyncManager.new, UInt64.zero_add, UInt64.toNat_ofNat']
  · rw [hrun, recordAll_changes, pushAll_eq_drop]
    simp only [SyncManager.new, List.nil_append, List.length_nil, Nat.sub_zero]
    congr 1
    omega

/-- A counter that has not gone around counts the changes. -/
theorem CountsModulo.law {maxChanges : UInt64} {calls : List Recording}
    (h : CountsModulo maxChanges calls) (hlt : (recordedBy calls).length < 2 ^ 64) :
    SuffixLaw maxChanges calls := by
  have hoffset := h.offset
  rw [Nat.mod_eq_of_lt hlt] at hoffset
  refine ⟨?_, hoffset, h.retained, fun o => ?_⟩
  · rw [h.returned]
    refine (List.map_congr_left fun i hi => ?_).trans (List.map_id _)
    exact Nat.mod_eq_of_lt (Nat.lt_trans (List.mem_range.mp hi) hlt)
  · rw [getChangesSince_eq, hoffset, h.retained, latest, List.length_drop, List.drop_drop]
    by_cases hle : o.toNat ≤ (recordedBy calls).length
    · congr 1
      omega
    · rw [List.drop_eq_nil_of_le (by omega), List.drop_eq_nil_of_le (by omega)]

/-- Whatever calls record the changes and whatever the capacity: the log holds the newest of
them, and the counter counts them modulo 2^64; as long as it can count them all, the suffix law
holds. -/
theorem suffix_law (maxChanges : UInt64) (calls : List Recording) :
    CountsModulo maxChanges calls ∧
      ((recordedBy calls).length < 2 ^ 64 → SuffixLaw maxChanges calls) :=
  ⟨countsModulo maxChanges calls, (countsModulo maxChanges calls).law⟩

/-- Two changes in a batch and one more, recorded by a manager that keeps two. -/
theorem suffix_law_sample :
    SuffixLaw 2 [.response ⟨7, [sampleChange, otherChange], true⟩ 0,
      .recordChange sampleChange] :=
  (suffix_law 2 _).2 (by decide)

theorem recordedBy_replicate (n : Nat) (c : Change) :
    recordedBy (List.replicate n (.recordChange c)) = List.replicate n c := by
  induction n with
  | zero => rfl
  | succ n ih => exact congrArg (c :: ·) ih

/-- As many changes as the counter has values leave the offset at zero. -/
theorem not_suffix_law_wrapped :
    ¬ SuffixLaw 1 (List.replicate (2 ^ 64) (.recordChange sampleChange)) := by
  intro h
  have hoffset := h.offset
  have hlt := UInt64.toNat_lt
    (recordings.run (.new 1) (List.replicate (2 ^ 64) (.recordChange sampleChange))).offset
  rw [hoffset, recordedBy_replicate, List.length_replicate] at hlt
  exact Nat.lt_irrefl _ hlt

/-! ## The bound -/

/-- The first part of a restore: the log and the offset are replaced.  It has happened also
where the rest, which restores the peers, panics. -/
def SyncManager.restoreLog (m : SyncManager) (snapshot : SyncSnapshot) : SyncManager :=
  { m with changes := snapshot.changes, offset := snapshot.offset }

/-- The log and the offset after a restore are those of its first part. -/
theorem restore_toSyncManager {ι : Type} {ids : EndpointIds ι} {m m' : PeerSyncManager ι}
    {s : SyncSnapshot} (hrestore : m.restore ids s = some m') :
    m'.toSyncManager = m.toSyncManager.restoreLog s := by
  rcases Option.map_eq_some_iff.mp hrestore with ⟨states, _, rfl⟩
  rfl

/-- An operation on the log. -/
inductive LogOp where
  | record (call : Recording)
  | applyChanges (changes : List Change)
  | restore (snapshot : SyncSnapshot)

/-- The manager under operations on its log. -/
def logMachine : Machine SyncManager LogOp Unit where
  next m op :=
    match op with
    | .record call => recordings.next m call
    | .applyChanges changes => (m.applyChanges changes).1
    | .restore snapshot => m.restoreLog snapshot
  answer _ _ := ()

/-- The log keeps to its capacity. -/
def SyncManager.Bounded (m : SyncManager) : Prop :=
  m.changes.length ≤ m.maxChanges.toNat

/-- A snapshot that is restored holds no more changes than the capacity. -/
def LogOp.Fits (maxChanges : UInt64) : LogOp → Prop
  | .restore snapshot => snapshot.changes.length ≤ maxChanges.toNat
  | _ => True

/-- No operation changes the capacity. -/
theorem logMachine_maxChanges (m : SyncManager) (op : LogOp) :
    (logMachine.next m op).maxChanges = m.maxChanges := by
  cases op with
  | record call =>
      have hrecordAll : ∀ (cs : List Change) (m : SyncManager),
          (m.recordAll cs).maxChanges = m.maxChanges := by
        intro cs
        induction cs with
        | nil => exact fun _ => rfl
        | cons c cs ih => exact fun m => ih _
      exact (congrArg SyncManager.maxChanges (recordings_next m call)).trans
        (hrecordAll call.changes m)
  | applyChanges changes => rfl
  | restore snapshot => rfl

/-- Recording keeps a bounded log bounded. -/
theorem SyncManager.Bounded.recordAll {m : SyncManager} (h : m.Bounded) (cs : List Change) :
    (m.recordAll cs).changes.length ≤ m.maxChanges.toNat := by
  have hbounded : m.changes.length ≤ m.maxChanges.toNat := h
  rw [recordAll_changes, pushAll_length]
  omega

/-- After an operation a bounded log is bounded exactly if what was restored fits. -/
theorem bounded_next_iff {m : SyncManager} (h : m.Bounded) (op : LogOp) :
    (logMachine.next m op).Bounded ↔ op.Fits m.maxChanges := by
  rw [SyncManager.Bounded, logMachine_maxChanges]
  cases op with
  | record call =>
      refine ⟨fun _ => trivial, fun _ => ?_⟩
      exact (congrArg (·.changes.length ≤ m.maxChanges.toNat) (recordings_next m call)).mpr
        (h.recordAll call.changes)
  | applyChanges changes => exact ⟨fun _ => trivial, fun _ => h⟩
  | restore snapshot => exact Iff.rfl

/-- The log of a new manager keeps to its capacity after every operation exactly if no
snapshot that is restored holds more changes than that. -/
theorem log_bounded_iff (maxChanges : UInt64) (ops : List LogOp) :
    logMachine.Along (fun m op => (logMachine.next m op).Bounded) (.new maxChanges) ops ↔
      ∀ op ∈ ops, op.Fits maxChanges := by
  rw [← along_events_iff (M := logMachine) (.new maxChanges)]
  refine along_iff (I := fun m => m.maxChanges = maxChanges ∧ m.Bounded) ?_ ?_ ?_ ops
  · exact fun m op h hbounded => ⟨(logMachine_maxChanges m op).trans h.1, hbounded⟩
  · exact fun m op h => h.1 ▸ bounded_next_iff h.2 op
  · exact ⟨rfl, Nat.zero_le _⟩

/-- A manager that keeps one change, restored from the snapshot of a larger one, holds two,
and still does after it has recorded another one. -/
theorem not_bounded_restored :
    ¬ logMachine.Along (fun m op => (logMachine.next m op).Bounded) (.new 1)
      [.restore ⟨2, [sampleChange, otherChange], []⟩, .record (.recordChange sampleChange)] := by
  intro halong
  have hlast : SyncManager.Bounded _ := halong.2.1
  exact absurd hlast (by unfold SyncManager.Bounded; decide)

end IrohSync
