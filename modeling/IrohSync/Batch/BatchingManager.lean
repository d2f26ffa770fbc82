import IrohSync.Batch.FlushTask

/-!
# The batching sync manager

A batching manager records each change in the log of its sync manager and adds it to a
batcher, whose background task it starts when it is created.  It keeps neither the receiver
of the batch channel nor a way to shut the task down, and the sync manager is shared: others
record changes in it as well.

A tick and a flush are one step each, and the time is such that the age limit can be added to it,
so that the task does not panic.

Main results:

- Theorem {lit}`BatchCall.run_closed`: an operation of a batcher whose channel is closed.
- Theorem {lit}`ManagerRun.flat_next`: a step is the operation of the wrapper, or a tick.
- Theorem {lit}`batching_plain`: the log is what it would be without batching, no batch
  reaches anybody, little is kept, and the task never ends.
-/

namespace IrohSync

namespace Batch

open Machine

/-! ## A closed channel -/

section Closed

variable {b : ChangeBatcher}

/-- What an operation of a batcher leaves behind if its channel takes nothing: what was
pending and what is added, unless it flushes; without batching what is added is gone. -/
theorem BatchCall.run_closed (hclosed : ¬ b.batchTx.Accepts) (call : BatchCall) :
    (call.run b).1.batchTx = b.batchTx ∧ (call.run b).1.config = b.config ∧
      (((call.run b).1.pending = b.pending ++ call.adds ∧ ¬ call.Sends b) ∨
        (call.run b).1.pending = [] ∨
        (b.config.enabled = false ∧ (call.run b).1.pending = b.pending)) := by
  by_cases hsends : call.Sends b
  · by_cases henabled : call.adds ≠ [] → b.config.enabled = true
    · rcases run_flushes hsends henabled with ⟨p, now, hholds, hne, hrun⟩
      have hrefuses : ¬ p.sealed.batchTx.Accepts := by
        rw [show p.sealed.batchTx = b.batchTx from hholds.batchTx]
        exact hclosed
      rw [hrun, ChangeBatcher.flush_of_ne hne, ChangeBatcher.send_refused hrefuses]
      exact ⟨hholds.batchTx, hholds.config, Or.inr (Or.inl rfl)⟩
    · rw [Classical.not_imp, Bool.not_eq_true] at henabled
      cases call with
      | add c now =>
          have hrefuses : ¬ ({ b.checked with sequence := b.sequence + 1 } :
              ChangeBatcher).batchTx.Accepts := by
            rw [ChangeBatcher.checked_eq]
            exact hclosed
          rw [run, ChangeBatcher.add_disabled henabled.2, ChangeBatcher.send_refused hrefuses,
            ChangeBatcher.checked_eq]
          exact ⟨rfl, rfl, Or.inr (Or.inr ⟨henabled.2, rfl⟩)⟩
      | forceFlush now => exact absurd rfl henabled.1
      | ageTick now => exact absurd rfl henabled.1
  · rcases run_holds hsends with ⟨_, hholds⟩
    exact ⟨hholds.batchTx, hholds.config, Or.inl ⟨hholds.pending, hsends⟩⟩

end Closed

/-! ## Runs -/

/-- A batching manager with the tasks of its batcher, which has one caller. -/
structure ManagerRun where
  syncManager : SyncManager
  supervised : Supervised Unit

/-- A batching manager is created for a sync manager: it starts the background task. -/
def ManagerRun.new (syncManager : SyncManager) (config : BatchConfig) : ManagerRun where
  syncManager := syncManager
  supervised := Batch.supervised.run
    (.start (ChangeBatcher.new config (Channel.new 100).dropReceiver))
    [.start (), .advance (), .advance (), .advance ()]

/-- A change is recorded, by the wrapper or behind its back; pending changes are flushed; or
a task goes on. -/
inductive ManagerEvent where
  | recordChange (change : Change) (now : Instant)
  | recordPlain (change : Change)
  | flush (now : Instant)
  | tick (i : Nat) (now : Instant)
  | leave (i : Nat)
  | clear (i : Nat)

/-- The state after an event. -/
def ManagerRun.next (s : ManagerRun) : ManagerEvent → ManagerRun
  | .recordChange change now =>
      { syncManager := (s.syncManager.recordChange change).1
        supervised := s.supervised.next (.outer (.add change now)) }
  | .recordPlain change => { s with syncManager := (s.syncManager.recordChange change).1 }
  | .flush now => { s with supervised := s.supervised.next (.outer (.forceFlush now)) }
  | .tick i now => { s with supervised := s.supervised.next (.tick i now) }
  | .leave i => { s with supervised := s.supervised.next (.leave i) }
  | .clear i => { s with supervised := s.supervised.next (.clear i) }

/-- Batching managers. -/
def managerRuns : Machine ManagerRun ManagerEvent Unit where
  next := ManagerRun.next
  answer _ _ := ()

/-- The change that an event records in the log. -/
def ManagerEvent.recorded : ManagerEvent → List Change
  | .recordChange change _ => [change]
  | .recordPlain change => [change]
  | .flush _ => []
  | .tick _ _ => []
  | .leave _ => []
  | .clear _ => []

/-- The change that an event adds to the batcher. -/
def ManagerEvent.batched : ManagerEvent → List Change
  | .recordChange change _ => [change]
  | .recordPlain _ => []
  | .flush _ => []
  | .tick _ _ => []
  | .leave _ => []
  | .clear _ => []

/-! ## The wrapper -/

/-- The batching manager without its tasks. -/
def ManagerRun.flat (s : ManagerRun) : BatchingSyncManager where
  syncManager := s.syncManager
  batcher := s.supervised.batching.batcher

theorem ManagerRun.flat_new (syncManager : SyncManager) (config : BatchConfig) :
    (new syncManager config).flat = .new syncManager config :=
  rfl

/-- The operations of the wrapper. -/
theorem ManagerRun.flat_next (s : ManagerRun) (change : Change) (now : Instant) :
    (s.next (.recordChange change now)).flat = s.flat.recordChange change now ∧
      (s.next (.flush now)).flat = s.flat.flush now :=
  ⟨rfl, rfl⟩

/-! ## The invariant -/

/-- The log has what was recorded, the task runs, the channel is closed, and what is pending
are the last changes added, fewer than fill a batch, and none without batching. -/
structure Plain (m : SyncManager) (config : BatchConfig) (recorded batched : List Change)
    (s : ManagerRun) : Prop where
  log : s.syncManager = m.recordAll recorded
  slots : s.supervised.slots = [⟨.new, .running⟩]
  received : s.supervised.batching.received = []
  batchTx : s.supervised.batching.batcher.batchTx = (Channel.new 100).dropReceiver
  config_eq : s.supervised.batching.batcher.config = config
  pending : s.supervised.batching.batcher.pending <:+ batched
  small : s.supervised.batching.batcher.pending.length < max config.maxBatchSize 1
  disabled : config.enabled = false → s.supervised.batching.batcher.pending = []

variable {m : SyncManager} {config : BatchConfig} {recorded batched : List Change}
  {s : ManagerRun}

theorem plain_new (m : SyncManager) (config : BatchConfig) :
    Plain m config [] [] (.new m config) where
  log := rfl
  slots := rfl
  received := rfl
  batchTx := rfl
  config_eq := rfl
  pending := List.suffix_refl _
  small := Nat.lt_of_lt_of_le Nat.one_pos (Nat.le_max_right _ _)
  disabled := fun _ => rfl

/-- An operation of the batcher. -/
theorem Plain.call (h : Plain m config recorded batched s) (call : BatchCall)
    {log : List Change} (hlog : s.syncManager = m.recordAll log) :
    Plain m config log (batched ++ call.adds)
      { s with
        supervised :=
          { s.supervised with batching := s.supervised.batching.next (.call call) } } := by
  have hclosed : ¬ s.supervised.batching.batcher.batchTx.Accepts := by
    rw [h.batchTx]
    exact fun haccepts => Bool.false_ne_true haccepts.1
  rcases call.run_closed hclosed with ⟨hbatchTx, hconfig, hpending⟩
  rw [h.config_eq] at hconfig
  have hkept : (call.run s.supervised.batching.batcher).1.pending <:+ batched ++ call.adds ∧
      (call.run s.supervised.batching.batcher).1.pending.length < max config.maxBatchSize 1 ∧
      (config.enabled = false → (call.run s.supervised.batching.batcher).1.pending = []) := by
    rcases hpending with ⟨hall, hquiet⟩ | hnone | ⟨hdisabled, hsame⟩
    · rw [hall]
      rcases h.pending with ⟨front, hfront⟩
      refine ⟨⟨front, by rw [← hfront, List.append_assoc]⟩, ?_⟩
      have hsmall := h.small
      cases call with
      | add c now =>
          rw [BatchCall.Sends, not_or, h.config_eq] at hquiet
          rw [BatchCall.adds, List.length_append, List.length_singleton]
          exact ⟨by omega, fun hdisabled => absurd hdisabled hquiet.1⟩
      | forceFlush now =>
          rw [BatchCall.adds, List.append_nil]
          exact ⟨hsmall, h.disabled⟩
      | ageTick now =>
          rw [BatchCall.adds, List.append_nil]
          exact ⟨hsmall, h.disabled⟩
    · rw [hnone]
      exact ⟨List.nil_suffix, Nat.lt_of_lt_of_le Nat.one_pos (Nat.le_max_right _ _), fun _ => rfl⟩
    · rw [hsame, h.disabled (h.config_eq ▸ hdisabled)]
      exact ⟨List.nil_suffix, Nat.lt_of_lt_of_le Nat.one_pos (Nat.le_max_right _ _), fun _ => rfl⟩
  exact
    { log := hlog
      slots := h.slots
      received := h.received
      batchTx := hbatchTx.trans h.batchTx
      config_eq := hconfig
      pending := hkept.1
      small := hkept.2.1
      disabled := hkept.2.2 }

/-- The one task runs and is not told to end. -/
theorem Plain.task (h : Plain m config recorded batched s) {i : Nat} {phase : TaskPhase}
    (hphase : s.supervised.phaseAt i = some phase) :
    phase = .running ∧ s.supervised.toldAt i = some false := by
  rw [Supervised.phaseAt, h.slots] at hphase
  rw [Supervised.toldAt, h.slots]
  cases i with
  | zero => exact ⟨(Option.some.inj hphase).symm, rfl⟩
  | succ i => simp at hphase

/-- Every event. -/
theorem Plain.next (h : Plain m config recorded batched s) (event : ManagerEvent) :
    Plain m config (recorded ++ event.recorded) (batched ++ event.batched) (s.next event) := by
  have hquiet : ∀ {t}, Plain m config recorded (batched ++ []) t →
      Plain m config (recorded ++ []) (batched ++ []) t := fun ht => by
    rw [List.append_nil recorded]
    exact ht
  have hsame : Plain m config recorded (batched ++ []) s := by
    rw [List.append_nil]
    exact h
  have hlog : ∀ change, (s.syncManager.recordChange change).1 =
      m.recordAll (recorded ++ [change]) := by
    intro change
    rw [recordAll_append, ← h.log]
    rfl
  cases event with
  | recordChange change now =>
      have hrecorded : Plain m config (recorded ++ [change]) batched
          { s with syncManager := (s.syncManager.recordChange change).1 } :=
        { h with log := hlog change }
      exact hrecorded.call (.add change now) (hlog change)
  | recordPlain change =>
      exact { hsame with log := hlog change }
  | flush now => exact hquiet (h.call (.forceFlush now) h.log)
  | tick i now =>
      rw [ManagerRun.next, Supervised.next]
      split
      · exact hquiet (h.call (.ageTick now) h.log)
      · exact hquiet hsame
  | leave i =>
      rw [ManagerRun.next, Supervised.next]
      split
      · next hleaves => exact absurd ((h.task hleaves.1).2.symm.trans hleaves.2) (by decide)
      · exact hquiet hsame
  | clear i =>
      rw [ManagerRun.next, Supervised.next]
      split
      · next hleaving => exact absurd (h.task hleaving).1 (by decide)
      · exact hquiet hsame

theorem Plain.run (h : Plain m config recorded batched s) (events : List ManagerEvent) :
    Plain m config (recorded ++ events.flatMap ManagerEvent.recorded)
      (batched ++ events.flatMap ManagerEvent.batched) (managerRuns.run s events) := by
  induction events generalizing recorded batched s with
  | nil =>
      rw [List.flatMap_nil, List.flatMap_nil, List.append_nil, List.append_nil]
      exact h
  | cons event events ih =>
      rw [List.flatMap_cons, List.flatMap_cons, ← List.append_assoc, ← List.append_assoc]
      exact ih (h.next event)

/-- In every run of a batching manager, whoever else records changes: the log is that of a
plain manager with the same changes; no batch was put into the channel and none was received;
pending are some of the last changes, fewer than a batch has room for; and the background task,
whose ticks are one step and do not panic, still runs without having been told to end. -/
theorem batching_plain (m : SyncManager) (config : BatchConfig) (events : List ManagerEvent) :
    Plain m config (events.flatMap ManagerEvent.recorded)
      (events.flatMap ManagerEvent.batched) (managerRuns.run (.new m config) events) :=
  (plain_new m config).run events

end Batch

end IrohSync
