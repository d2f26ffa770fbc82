import IrohSync.Lib.Machine
import IrohSync.Lib.Turns
import IrohSync.Batch.Batcher

/-!
# The batcher under concurrent calls

Any number of callers add changes and force flushes while the background task
looks at the age of the batch.  A call goes through the parts of its operation
one by one, each of them under one lock, and other calls come in between.

The age check holds the batch start while it counts the pending changes, and
taking the pending changes holds them while it resets the batch start; each of
the two is one part here.  That the two can block each other is another matter.

Main results:

- Theorem {lit}`alone_add`: an addition that nothing interrupts does what the whole
  operation does, and likewise {lit}`alone_forceFlush` and {lit}`alone_age`.
-/

namespace IrohSync

namespace Batch

open Machine

/-! ## Calls and their parts -/

/-- A call, at the part it comes to next. -/
inductive Task where
  | add (change : Change)
  | push (change : Change)
  | check
  | flush
  | draw (changes : List Change)
  | send (batch : ChangeBatch)
  | age
deriving DecidableEq, Repr

/-- One part of a call: the batcher after it and what is left of the call. -/
def Task.part (b : ChangeBatcher) (now : Instant) : Task → ChangeBatcher × Option Task
  | .add change =>
      let b := if b.taskHasCrashed then b.tryRestartTask else b
      if !b.config.enabled then
        let (b, seq) := b.drawSequence
        (b, some (.send (ChangeBatch.new [change] seq now)))
      else (b.markStart now, some (.push change))
  | .push change => (b.push change, some .check)
  | .check => (b, if b.shouldFlushSize then some .flush else none)
  | .flush =>
      match b.takePending with
      | (b, none) => (b, none)
      | (b, some changes) => (b, some (.draw changes))
  | .draw changes =>
      let (b, seq) := b.drawSequence
      (b, some (.send (ChangeBatch.new changes seq now)))
  | .send batch => ((b.send batch).1, none)
  | .age => (b, if b.ageCheck now then some .flush else none)

/-- The changes that a part pushes to pending; with batching disabled a change goes
into a batch of its own instead. -/
def Task.pushes (b : ChangeBatcher) : Task → List Change
  | .add change => if b.config.enabled then [] else [change]
  | .push change => [change]
  | _ => []

/-- A batcher, the calls in progress in the order of their last parts, the changes
in the order they were pushed, and the batches in the order they were received. -/
structure Interleaved where
  batcher : ChangeBatcher
  tasks : List Task
  pushed : List Change
  received : List ChangeBatch

/-- The state before the first call. -/
def Interleaved.start (b : ChangeBatcher) : Interleaved where
  batcher := b
  tasks := []
  pushed := []
  received := []

/-- A call begins, a call in progress goes through its next part, or a batch is
received. -/
inductive Turn where
  | add (change : Change)
  | forceFlush
  | age
  | step (i : Nat) (now : Instant)
  | recv

/-- A call that begins. -/
def Interleaved.begin (s : Interleaved) (t : Task) : Interleaved :=
  { s with tasks := s.tasks ++ [t] }

/-- A part of the call at a place. -/
def Interleaved.step (s : Interleaved) (i : Nat) (t : Task) (now : Instant) : Interleaved :=
  { s with
    batcher := (t.part s.batcher now).1
    tasks := Turns.advance s.tasks i (t.part s.batcher now).2
    pushed := s.pushed ++ t.pushes s.batcher }

/-- The state after a turn. -/
def Interleaved.next (s : Interleaved) : Turn → Interleaved
  | .add change => s.begin (.add change)
  | .forceFlush => s.begin .flush
  | .age => s.begin .age
  | .step i now =>
      match s.tasks[i]? with
      | none => s
      | some t => s.step i t now
  | .recv =>
      match s.batcher.batchTx.recv with
      | none => s
      | some (batch, batchTx) =>
          { s with
            batcher := { s.batcher with batchTx := batchTx }
            received := s.received ++ [batch] }

/-- The interleavings of any number of calls. -/
def interleaved : Machine Interleaved Turn Unit where
  next := Interleaved.next
  answer _ _ := ()

/-! ## The parts of a call -/

variable {b : ChangeBatcher}

theorem Task.part_add_enabled (henabled : b.config.enabled = true) (c : Change) (now : Instant) :
    (Task.add c).part b now = (b.checked.markStart now, some (.push c)) := by
  unfold part
  change (if !b.checked.config.enabled then _ else _) = _
  rw [ChangeBatcher.checked_config, henabled]
  rfl

theorem Task.part_add_disabled (hdisabled : b.config.enabled = false) (c : Change)
    (now : Instant) :
    (Task.add c).part b now =
      ({ b.checked with sequence := b.sequence + 1 },
        some (.send (ChangeBatch.new [c] (b.sequence + 1) now))) := by
  unfold part
  change (if !b.checked.config.enabled then _ else _) = _
  rw [ChangeBatcher.checked_config, hdisabled, ← ChangeBatcher.checked_sequence]
  rfl

theorem Task.part_flush_nil (hpending : b.pending = []) (now : Instant) :
    Task.flush.part b now = (b, none) := by
  rw [part, ChangeBatcher.takePending_nil hpending]

theorem Task.part_flush_of_ne (hpending : b.pending ≠ []) (now : Instant) :
    Task.flush.part b now =
      ({ b with batchStart := none, pending := [] }, some (.draw b.pending)) := by
  rw [part, ChangeBatcher.takePending_of_ne hpending]

/-- A send touches nothing but the channel. -/
theorem ChangeBatcher.send_eq (b : ChangeBatcher) (batch : ChangeBatch) :
    (b.send batch).1 = { b with batchTx := (b.send batch).1.batchTx } := by
  by_cases haccepts : b.batchTx.Accepts
  · rw [send_accepted haccepts]
  · rw [send_refused haccepts]

/-! ## A call that nothing interrupts -/

/-- The batcher after at most so many parts of a call. -/
def Task.alone (now : Instant) : Nat → ChangeBatcher → Task → ChangeBatcher
  | 0, b, _ => b
  | n + 1, b, t =>
      match t.part b now with
      | (b, none) => b
      | (b, some rest) => rest.alone now n b

theorem alone_forceFlush (b : ChangeBatcher) (now : Instant) :
    Task.flush.alone now 3 b = b.forceFlush now := by
  by_cases hpending : b.pending = []
  · rw [ChangeBatcher.forceFlush, ChangeBatcher.flush_nil hpending, Task.alone,
      Task.part_flush_nil hpending]
  · rw [ChangeBatcher.forceFlush, ChangeBatcher.flush_of_ne hpending, Task.alone,
      Task.part_flush_of_ne hpending]
    rfl

theorem alone_age (b : ChangeBatcher) (now : Instant) :
    Task.age.alone now 4 b = b.ageTick now := by
  unfold ChangeBatcher.ageTick Task.alone Task.part
  cases b.ageCheck now with
  | false => rfl
  | true => exact alone_forceFlush b now

/-- An addition that nothing interrupts. -/
theorem alone_add (b : ChangeBatcher) (c : Change) (now : Instant) :
    (Task.add c).alone now 6 b = (b.add c now).1 := by
  cases henabled : b.config.enabled with
  | false =>
      rw [ChangeBatcher.add_disabled henabled, Task.alone, Task.part_add_disabled henabled]
      rfl
  | true =>
      rw [ChangeBatcher.add_enabled henabled, Task.alone, Task.part_add_enabled henabled]
      change Task.check.alone now 4 (b.pushed c now) = _
      unfold ChangeBatcher.checkFlush Task.alone Task.part
      cases (b.pushed c now).shouldFlushSize with
      | false => rfl
      | true => exact alone_forceFlush (b.pushed c now) now

end Batch

end IrohSync
