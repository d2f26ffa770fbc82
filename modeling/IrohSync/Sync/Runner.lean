import IrohSync.Lib.Channel
import IrohSync.Sync.Manager

/-!
# The replicator runner

A recorded change goes through the channel of the runner to a forwarding task,
which hands it to the replicator and to the hooks.  The replicator sends it into
a channel of its own, whose receiver was dropped when the replicator was
created, and ignores the error.  The hooks get every change and the change log
gets none.

Main results:

- Theorems {lit}`ReplicatorRunner.step_spec` and {lit}`ReplicatorRunner.run_spec`:
  the state after one record or forwarding step, and after any interleaving.
- Theorem {lit}`runner_records_iff`: exactly which sequences reach the log.
-/

namespace IrohSync

open BoundedLog

/-! ## The components -/

/-- The main replicator: its sync manager and the channel for submitting local
changes. -/
structure Replicator where
  syncManager : SyncManager
  changeTx : Channel Change

/-- Create a new replicator.  Nothing keeps the receiver of the channel, so it
is dropped on return. -/
def Replicator.new : Replicator where
  syncManager := SyncManager.new 10000
  changeTx := (Channel.new 1000).dropReceiver

/-- Record a local change for sync; a failed send is ignored. -/
def Replicator.recordChange (r : Replicator) (change : Change) : Replicator :=
  { r with changeTx := (r.changeTx.trySend change).1 }

/-- The runner: its replicator, what each registered hook was given, and the
channel to the forwarding task. -/
structure ReplicatorRunner where
  replicator : Replicator
  hooks : List (List Change)
  changeTx : Channel Change

/-- Create a new replicator runner. -/
def ReplicatorRunner.new : ReplicatorRunner where
  replicator := Replicator.new
  hooks := []
  changeTx := Channel.new 1000

/-- Record a local change for sync and hook notification; a failed send is
ignored. -/
def ReplicatorRunner.recordChange (r : ReplicatorRunner) (change : Change) : ReplicatorRunner :=
  { r with changeTx := (r.changeTx.trySend change).1 }

/-- One turn of the forwarding task, which waits while its channel is empty. -/
def ReplicatorRunner.forward (r : ReplicatorRunner) : ReplicatorRunner :=
  match r.changeTx.recv with
  | none => r
  | some (change, changeTx) =>
      { replicator := r.replicator.recordChange change
        hooks := r.hooks.map fun given => given ++ [change]
        changeTx := changeTx }

/-! ## Runs -/

/-- A call of the runner or a turn of its task. -/
inductive RunnerEvent where
  | record (change : Change)
  | forward

/-- One event. -/
def ReplicatorRunner.step (r : ReplicatorRunner) : RunnerEvent → ReplicatorRunner
  | .record change => r.recordChange change
  | .forward => r.forward

/-- A run of events. -/
def ReplicatorRunner.run (r : ReplicatorRunner) (events : List RunnerEvent) : ReplicatorRunner :=
  events.foldl ReplicatorRunner.step r

@[simp]
theorem ReplicatorRunner.run_cons (r : ReplicatorRunner) (event : RunnerEvent)
    (events : List RunnerEvent) : r.run (event :: events) = (r.step event).run events :=
  rfl

/-- The changes that a run passes to the runner. -/
def submitted : List RunnerEvent → List Change
  | [] => []
  | .record change :: events => change :: submitted events
  | .forward :: events => submitted events

/-- In no state of a run either channel is full. -/
def ReplicatorRunner.NeverFull : ReplicatorRunner → List RunnerEvent → Prop
  | r, [] => ¬ r.changeTx.Full ∧ ¬ r.replicator.changeTx.Full
  | r, event :: events =>
      (¬ r.changeTx.Full ∧ ¬ r.replicator.changeTx.Full) ∧ (r.step event).NeverFull events

/-- The channels of a runner are as they were created: the task holds one
receiver and nobody holds the other. -/
structure ReplicatorRunner.Wired (r : ReplicatorRunner) : Prop where
  taskAlive : r.changeTx.receiverAlive = true
  replicatorDropped : r.replicator.changeTx.receiverAlive = false

/-- A new runner with registered hooks, whose replicator has a log. -/
def ReplicatorRunner.started (m : SyncManager) (hooks : List (List Change)) : ReplicatorRunner :=
  { ReplicatorRunner.new with
    replicator := { Replicator.new with syncManager := m }
    hooks := hooks }

theorem ReplicatorRunner.started_wired (m : SyncManager) (hooks : List (List Change)) :
    (started m hooks).Wired :=
  ⟨rfl, rfl⟩

/-- A replicator without a receiver stays as it is. -/
theorem Replicator.recordChange_dropped {r : Replicator}
    (hdropped : r.changeTx.receiverAlive = false) (c : Change) : r.recordChange c = r := by
  rw [Replicator.recordChange, Channel.trySend_dropped hdropped]

theorem submitted_cons (event : RunnerEvent) (events : List RunnerEvent) :
    submitted (event :: events) = submitted [event] ++ submitted events := by
  cases event <;> rfl

/-- A step either queues the change it is passed or gives every hook the oldest
queued one; the replicator drops it, and the channels stay as they were created. -/
theorem ReplicatorRunner.step_spec {r : ReplicatorRunner} (h : r.Wired)
    (hroom : ¬ r.changeTx.Full) (event : RunnerEvent) :
    (r.step event).Wired ∧ ∃ given,
      given ++ (r.step event).changeTx.queue = r.changeTx.queue ++ submitted [event] ∧
      (r.step event).hooks = r.hooks.map (fun before => before ++ given) ∧
      (r.step event).replicator = r.replicator := by
  cases event with
  | record c =>
      have hsend := Channel.trySend_of_lt h.taskAlive hroom c
      have hstep : r.step (.record c) =
          { r with changeTx := { r.changeTx with queue := r.changeTx.queue ++ [c] } } := by
        rw [step, recordChange, hsend]
      rw [hstep]
      exact ⟨⟨h.taskAlive, h.replicatorDropped⟩, [], by simp [submitted], by simp, rfl⟩
  | forward =>
      cases hqueue : r.changeTx.queue with
      | nil =>
          have hstep : r.step .forward = r := by
            simp [step, forward, Channel.recv, hqueue]
          rw [hstep]
          exact ⟨h, [], by simp [submitted, hqueue], by simp, rfl⟩
      | cons c rest =>
          have hstep : r.step .forward =
              { replicator := r.replicator
                hooks := r.hooks.map fun given => given ++ [c]
                changeTx := { r.changeTx with queue := rest } } := by
            simp [step, forward, Channel.recv, hqueue,
              Replicator.recordChange_dropped h.replicatorDropped]
          rw [hstep]
          exact ⟨⟨h.taskAlive, h.replicatorDropped⟩, [c], by simp [submitted], rfl, rfl⟩

/-- What the hooks were given and what is still queued is what was submitted,
and the replicator is as before. -/
theorem ReplicatorRunner.run_spec {r : ReplicatorRunner} (h : r.Wired)
    {events : List RunnerEvent} (hnever : r.NeverFull events) :
    ∃ given, given ++ (r.run events).changeTx.queue = r.changeTx.queue ++ submitted events ∧
      (r.run events).hooks = r.hooks.map (fun before => before ++ given) ∧
      (r.run events).replicator = r.replicator := by
  induction events generalizing r with
  | nil => exact ⟨[], by simp [run, submitted], by simp [run], rfl⟩
  | cons event events ih =>
      rcases hnever with ⟨⟨hroom, _⟩, hnext⟩
      rcases step_spec h hroom event with ⟨hwired, given, hqueue, hhooks, hreplicator⟩
      rcases ih hwired hnext with ⟨given', hqueue', hhooks', hreplicator'⟩
      refine ⟨given ++ given', ?_, ?_, ?_⟩
      · rw [run_cons, submitted_cons, List.append_assoc, hqueue', ← List.append_assoc, hqueue,
          List.append_assoc]
      · rw [run_cons, hhooks', hhooks]
        simp [Function.comp_def]
      · rw [run_cons, hreplicator', hreplicator]

/-! ## What reaches the log -/

/-- A drained runner has put the submitted changes into the log of its
replicator: the offset grew by their number and they can be read from the
earlier offset on, as far as the log keeps them. -/
structure LogHas (before after : SyncManager) (cs : List Change) : Prop where
  offset : after.offset.toNat = before.offset.toNat + cs.length
  readable : Retained before.maxChanges.toNat cs (after.getChangesSince before.offset)

/-- A log that is as before has exactly the empty sequence of new changes. -/
theorem logHas_self_iff (m : SyncManager) (cs : List Change) : LogHas m m cs ↔ cs = [] := by
  constructor
  · intro hhas
    have hoffset := hhas.offset
    exact List.eq_nil_of_length_eq_zero (by omega)
  · rintro rfl
    refine ⟨rfl, [], ?_, Or.inl rfl⟩
    rw [getChangesSince_eq, Nat.sub_self]
    simp [latest]

/-- In every run in which no channel is ever full and which ends with the
runner's channel drained, every hook was given exactly the submitted changes,
and the log of the replicator has them exactly if there are none. -/
theorem runner_records_iff (m : SyncManager) (hooks : List (List Change))
    (events : List RunnerEvent)
    (hnever : (ReplicatorRunner.started m hooks).NeverFull events)
    (hdrained : ((ReplicatorRunner.started m hooks).run events).changeTx.queue = []) :
    ((ReplicatorRunner.started m hooks).run events).hooks =
      hooks.map (fun before => before ++ submitted events) ∧
    (LogHas m ((ReplicatorRunner.started m hooks).run events).replicator.syncManager
        (submitted events) ↔ submitted events = []) := by
  rcases ReplicatorRunner.run_spec (ReplicatorRunner.started_wired m hooks) hnever with
    ⟨given, hgiven, hhooks, hreplicator⟩
  have hempty : (ReplicatorRunner.started m hooks).changeTx.queue = [] := rfl
  rw [hdrained, hempty, List.append_nil, List.nil_append] at hgiven
  subst hgiven
  rw [hreplicator]
  exact ⟨hhooks, logHas_self_iff _ _⟩

/-- A run of one change through a new runner with one hook. -/
theorem runner_records_iff_sample :
    ((ReplicatorRunner.started (SyncManager.new 10000) [[]]).run
        [.record sampleChange, .forward]).hooks =
      [[]].map (fun before => before ++ [sampleChange]) ∧
    (LogHas (SyncManager.new 10000) ((ReplicatorRunner.started (SyncManager.new 10000) [[]]).run
        [.record sampleChange, .forward]).replicator.syncManager [sampleChange] ↔
      [sampleChange] = []) :=
  runner_records_iff (SyncManager.new 10000) [[]] [.record sampleChange, .forward]
    ⟨⟨by decide, by decide⟩, ⟨by decide, by decide⟩, by decide, by decide⟩ rfl

/-- A change that a new runner records never reaches the log of its replicator. -/
theorem not_logHas_recorded :
    (ReplicatorRunner.new.run [.record sampleChange, .forward]).changeTx.queue = [] ∧
    ¬ LogHas ReplicatorRunner.new.replicator.syncManager
      (ReplicatorRunner.new.run [.record sampleChange, .forward]).replicator.syncManager
      [sampleChange] := by
  refine ⟨rfl, fun hhas => ?_⟩
  have hoffset := hhas.offset
  revert hoffset
  decide

end IrohSync
