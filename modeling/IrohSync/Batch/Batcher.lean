import IrohSync.Lib.Channel
import IrohSync.Sync.Manager
import IrohSync.Sync.PeerStates

/-!
# Change batching

The batcher collects changes and hands them on as numbered batches.  A batch is
sealed when enough changes wait, when a caller forces it, and by a background
task when the oldest waiting change is old enough; it is then sent without
waiting into a bounded channel.

The operations are put together from the parts that the source runs under one
lock each: marking the start of a batch, pushing a change, looking at the number
of waiting changes, taking them, drawing a number, and the send.

Main results:

- Theorems {lit}`ChangeBatcher.flush_nil` and {lit}`ChangeBatcher.flush_of_ne`: the
  outcomes of a flush; {lit}`ChangeBatcher.send_refused`: a batch that is not taken.
- Theorems {lit}`ChangeBatcher.add_enabled` and {lit}`ChangeBatcher.add_disabled`:
  what adding a change comes down to.
-/

namespace IrohSync

namespace Batch

/-! ## The batcher -/

/-- Configuration for change batching; the age is in nanoseconds. -/
structure BatchConfig where
  maxBatchSize : Nat
  maxBatchAge : Nat
  enabled : Bool
deriving DecidableEq, Repr

/-- The default configuration. -/
def BatchConfig.default : BatchConfig where
  maxBatchSize := 100
  maxBatchAge := 100000000
  enabled := true

/-- A batch of changes ready for transmission. -/
structure ChangeBatch where
  changes : List Change
  createdAt : Instant
  sequence : UInt64
deriving DecidableEq, Repr

/-- Create a new batch. -/
def ChangeBatch.new (changes : List Change) (sequence : UInt64) (now : Instant) : ChangeBatch where
  changes := changes
  createdAt := now
  sequence := sequence

/-- The changes of several batches. -/
def changesOf (batches : List ChangeBatch) : List Change :=
  batches.flatMap ChangeBatch.changes

@[simp]
theorem changesOf_nil : changesOf [] = [] :=
  rfl

@[simp]
theorem changesOf_cons (batch : ChangeBatch) (batches : List ChangeBatch) :
    changesOf (batch :: batches) = batch.changes ++ changesOf batches :=
  List.flatMap_cons

@[simp]
theorem changesOf_append (front back : List ChangeBatch) :
    changesOf (front ++ back) = changesOf front ++ changesOf back :=
  List.flatMap_append

/-- Manages batching of changes before sync.  The handle of the background task
is reduced to whether there is one. -/
structure ChangeBatcher where
  config : BatchConfig
  pending : List Change
  batchTx : Channel ChangeBatch
  batchStart : Option Instant
  sequence : UInt64
  taskRunning : Bool
  taskHasCrashed : Bool
deriving DecidableEq, Repr

namespace ChangeBatcher

/-- Create a new change batcher. -/
def new (config : BatchConfig) (batchTx : Channel ChangeBatch) : ChangeBatcher where
  config := config
  pending := []
  batchTx := batchTx
  batchStart := none
  sequence := 0
  taskRunning := false
  taskHasCrashed := false

/-- Start the background flush task, unless it is already running. -/
def startBackgroundFlushTask (b : ChangeBatcher) : ChangeBatcher :=
  { b with taskRunning := true }

/-- Try to restart the background task if it crashed: only the flag is cleared. -/
def tryRestartTask (b : ChangeBatcher) : ChangeBatcher :=
  if b.taskHasCrashed && !b.taskRunning then { b with taskHasCrashed := false } else b

/-- Get the number of pending changes. -/
def pendingCount (b : ChangeBatcher) : Nat :=
  b.pending.length

/-! ## The parts under one lock -/

/-- Mark the batch start time if there is none. -/
def markStart (b : ChangeBatcher) (now : Instant) : ChangeBatcher :=
  { b with batchStart := b.batchStart.or (some now) }

/-- Add to pending. -/
def push (b : ChangeBatcher) (change : Change) : ChangeBatcher :=
  { b with pending := b.pending ++ [change] }

/-- Enough changes are pending. -/
def shouldFlushSize (b : ChangeBatcher) : Bool :=
  b.config.maxBatchSize ≤ b.pending.length

/-- Take the pending changes, if there are any, and reset the batch start. -/
def takePending (b : ChangeBatcher) : ChangeBatcher × Option (List Change) :=
  if b.pending.isEmpty then (b, none)
  else ({ b with batchStart := none, pending := [] }, some b.pending)

/-- Draw the next sequence number. -/
def drawSequence (b : ChangeBatcher) : ChangeBatcher × UInt64 :=
  ({ b with sequence := b.sequence + 1 }, b.sequence + 1)

/-- Send a batch without waiting; a batch that is not taken is dropped. -/
def send (b : ChangeBatcher) (batch : ChangeBatch) : ChangeBatcher × Bool :=
  match b.batchTx.trySend batch with
  | (batchTx, .ok ()) => ({ b with batchTx := batchTx }, true)
  | (batchTx, .error _) => ({ b with batchTx := batchTx }, false)

/-- The check of the background task: changes are pending and the batch start is
old enough. -/
def ageCheck (b : ChangeBatcher) (now : Instant) : Bool :=
  match b.batchStart with
  | some start => decide (b.config.maxBatchAge ≤ now - start) && decide (0 < b.pendingCount)
  | none => false

/-! ## The operations -/

/-- Flush pending changes into a batch. -/
def flush (b : ChangeBatcher) (now : Instant) : ChangeBatcher × Bool :=
  match b.takePending with
  | (b, none) => (b, false)
  | (b, some changes) =>
      if changes.isEmpty then (b, false)
      else
        let (b, seq) := b.drawSequence
        b.send (ChangeBatch.new changes seq now)

/-- Check if we should flush the pending changes. -/
def checkFlush (b : ChangeBatcher) (now : Instant) : ChangeBatcher × Bool :=
  if b.shouldFlushSize then b.flush now else (b, false)

/-- Add a change to the pending buffer.  Returns true if a batch was flushed;
with batching disabled also if the batch was not taken. -/
def add (b : ChangeBatcher) (change : Change) (now : Instant) : ChangeBatcher × Bool :=
  let b := if b.taskHasCrashed then b.tryRestartTask else b
  if !b.config.enabled then
    let (b, seq) := b.drawSequence
    ((b.send (ChangeBatch.new [change] seq now)).1, true)
  else
    let b := b.markStart now
    let b := b.push change
    b.checkFlush now

/-- Force flush any pending changes. -/
def forceFlush (b : ChangeBatcher) (now : Instant) : ChangeBatcher :=
  (b.flush now).1

/-- One turn of the background flush task. -/
def ageTick (b : ChangeBatcher) (now : Instant) : ChangeBatcher :=
  if b.ageCheck now then (b.flush now).1 else b

/-! ## What the operations do -/

variable {b : ChangeBatcher}

/-- A batcher whose pending changes were taken and got a number. -/
def sealed (b : ChangeBatcher) : ChangeBatcher :=
  { b with batchStart := none, pending := [], sequence := b.sequence + 1 }

/-- The batch of the pending changes. -/
def sealedBatch (b : ChangeBatcher) (now : Instant) : ChangeBatch :=
  ChangeBatch.new b.pending (b.sequence + 1) now

theorem send_accepted (haccepts : b.batchTx.Accepts) (batch : ChangeBatch) :
    b.send batch =
      ({ b with batchTx := { b.batchTx with queue := b.batchTx.queue ++ [batch] } }, true) := by
  rw [send, Channel.trySend_of_accepts haccepts]

/-- A batch that is not taken is gone. -/
theorem send_refused (hrefuses : ¬ b.batchTx.Accepts) (batch : ChangeBatch) :
    b.send batch = (b, false) := by
  rcases Channel.trySend_refused hrefuses batch with ⟨e, he⟩
  rw [send, he]

theorem takePending_nil (hpending : b.pending = []) : b.takePending = (b, none) := by
  simp [takePending, hpending]

theorem takePending_of_ne (hpending : b.pending ≠ []) :
    b.takePending = ({ b with batchStart := none, pending := [] }, some b.pending) := by
  simp [takePending, hpending]

theorem flush_nil (hpending : b.pending = []) (now : Instant) : b.flush now = (b, false) := by
  rw [flush, takePending_nil hpending]

theorem flush_of_ne (hpending : b.pending ≠ []) (now : Instant) :
    b.flush now = b.sealed.send (b.sealedBatch now) := by
  rw [flush, takePending_of_ne hpending]
  simp only [List.isEmpty_iff, if_neg hpending]
  rfl

/-- The batcher after the crash check of an addition. -/
def checked (b : ChangeBatcher) : ChangeBatcher :=
  if b.taskHasCrashed then b.tryRestartTask else b

/-- The crash check changes nothing but the flag. -/
theorem checked_eq (b : ChangeBatcher) :
    b.checked = { b with taskHasCrashed := b.checked.taskHasCrashed } := by
  unfold checked tryRestartTask
  split
  · split <;> rfl
  · rfl

@[simp]
theorem checked_config (b : ChangeBatcher) : b.checked.config = b.config := by
  rw [checked_eq]

@[simp]
theorem checked_sequence (b : ChangeBatcher) : b.checked.sequence = b.sequence := by
  rw [checked_eq]

/-- The batcher after an addition up to its size check. -/
def pushed (b : ChangeBatcher) (c : Change) (now : Instant) : ChangeBatcher :=
  (b.checked.markStart now).push c

theorem add_enabled (henabled : b.config.enabled = true) (c : Change) (now : Instant) :
    b.add c now = (b.pushed c now).checkFlush now := by
  unfold add
  change (if !b.checked.config.enabled then _ else _) = _
  rw [checked_config, henabled]
  rfl

theorem add_disabled (hdisabled : b.config.enabled = false) (c : Change) (now : Instant) :
    b.add c now =
      ((({ b.checked with sequence := b.sequence + 1 } : ChangeBatcher).send
        (ChangeBatch.new [c] (b.sequence + 1) now)).1, true) := by
  unfold add
  change (if !b.checked.config.enabled then _ else _) = _
  rw [checked_config, hdisabled, ← checked_sequence]
  rfl

end ChangeBatcher

/-! ## The batching sync manager -/

/-- A change collector that wraps a sync manager and adds batching. -/
structure BatchingSyncManager where
  syncManager : SyncManager
  batcher : ChangeBatcher

/-- Create a new batching sync manager.  Nothing keeps the receiver of the batch
channel, so it is dropped on return. -/
def BatchingSyncManager.new (syncManager : SyncManager) (config : BatchConfig) :
    BatchingSyncManager where
  syncManager := syncManager
  batcher := (ChangeBatcher.new config (Channel.new 100).dropReceiver).startBackgroundFlushTask

/-- Record a change with batching. -/
def BatchingSyncManager.recordChange (m : BatchingSyncManager) (change : Change) (now : Instant) :
    BatchingSyncManager where
  syncManager := (m.syncManager.recordChange change).1
  batcher := (m.batcher.add change now).1

/-- Flush pending batches. -/
def BatchingSyncManager.flush (m : BatchingSyncManager) (now : Instant) : BatchingSyncManager :=
  { m with batcher := m.batcher.forceFlush now }

end Batch

end IrohSync
