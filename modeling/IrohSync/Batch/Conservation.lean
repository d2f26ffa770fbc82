import IrohSync.Lib.Machine
import IrohSync.Batch.Batcher

/-!
# What becomes of an added change

The operations of the batcher as atomic steps, in any order, among the steps of
whoever has the receiver of the batch channel.  A flush takes the pending changes
before it knows whether the channel takes the batch, and with batching disabled
an addition does not look at the outcome of the send at all.

Main results:

- Theorems {lit}`BatchCall.run_holds` and {lit}`BatchCall.run_flushes`: what an operation
  comes down to.
- Theorems {lit}`BatchCall.run_quiet`, {lit}`BatchCall.run_sent` and
  {lit}`BatchCall.run_refused`: what an operation does to the pending changes and
  to the channel.
- Theorem {lit}`conserved_iff`: in which runs no change is lost and nothing is
  reported as sent that was not.
-/

namespace IrohSync

namespace Batch

open Machine

/-! ## Steps -/

/-- An operation of the batcher. -/
inductive BatchCall where
  | add (change : Change) (now : Instant)
  | forceFlush (now : Instant)
  | ageTick (now : Instant)

/-- The batcher after an operation, and whether the operation reports a flush. -/
def BatchCall.run (b : ChangeBatcher) : BatchCall → ChangeBatcher × Bool
  | .add change now => b.add change now
  | .forceFlush now => (b.forceFlush now, (b.flush now).2)
  | .ageTick now => (b.ageTick now, b.ageCheck now && (b.flush now).2)

/-- The changes that an operation adds. -/
def BatchCall.adds : BatchCall → List Change
  | .add change _ => [change]
  | .forceFlush _ => []
  | .ageTick _ => []

/-- The operation comes to a send. -/
def BatchCall.Sends (b : ChangeBatcher) : BatchCall → Prop
  | .add _ _ => b.config.enabled = false ∨ b.config.maxBatchSize ≤ b.pending.length + 1
  | .forceFlush _ => b.pending ≠ []
  | .ageTick now => b.ageCheck now = true

/-- A batcher, every change that was added and every batch that was received. -/
structure Batching where
  batcher : ChangeBatcher
  added : List Change
  received : List ChangeBatch

/-- The state before the first operation. -/
def Batching.start (b : ChangeBatcher) : Batching where
  batcher := b
  added := []
  received := []

/-- An operation of the batcher or a step of the receiver. -/
inductive BatchEvent where
  | call (call : BatchCall)
  | recv
  | close
  | dropReceiver

/-- The batcher with another state of its channel. -/
def ChangeBatcher.withChannel (b : ChangeBatcher) (batchTx : Channel ChangeBatch) :
    ChangeBatcher :=
  { b with batchTx := batchTx }

/-- The state after an event. -/
def Batching.next (s : Batching) : BatchEvent → Batching
  | .call call =>
      { s with batcher := (call.run s.batcher).1, added := s.added ++ call.adds }
  | .recv =>
      match s.batcher.batchTx.recv with
      | none => s
      | some (batch, batchTx) =>
          { s with
            batcher := s.batcher.withChannel batchTx
            received := s.received ++ [batch] }
  | .close => { s with batcher := s.batcher.withChannel s.batcher.batchTx.close }
  | .dropReceiver => { s with batcher := s.batcher.withChannel s.batcher.batchTx.dropReceiver }

/-- What an operation reports. -/
def Batching.answer (s : Batching) : BatchEvent → Bool
  | .call call => (call.run s.batcher).2
  | _ => false

/-- The runs of a batcher and its receiver. -/
def batching : Machine Batching BatchEvent Bool where
  next := Batching.next
  answer := Batching.answer

/-- Every added change is in exactly one place: pending, in the channel or
received. -/
def Conserved (s : Batching) : Prop :=
  ∀ c, s.added.count c =
    s.batcher.pending.count c + (changesOf s.batcher.batchTx.queue).count c +
      (changesOf s.received).count c

/-- A step loses and duplicates nothing, and reports a flush only if it put a
batch into the channel. -/
def SoundCall (s : Batching) (e : BatchEvent) : Prop :=
  Conserved (s.next e) ∧
    (s.answer e = true → ∃ batch,
      (s.next e).batcher.batchTx.queue = s.batcher.batchTx.queue ++ [batch])

/-- An operation that comes to a send finds the channel open and not full, and
the receiver goes only when the channel is empty. -/
def Delivers (s : Batching) : BatchEvent → Prop
  | .call call => call.Sends s.batcher → s.batcher.batchTx.Accepts
  | .dropReceiver => s.batcher.batchTx.queue = []
  | _ => True

/-! ## One operation -/

section Calls

variable {b : ChangeBatcher}

/-- The pending changes after an addition up to its size check. -/
@[simp]
theorem ChangeBatcher.pushed_pending (c : Change) (now : Instant) :
    (b.pushed c now).pending = b.pending ++ [c] := by
  rw [pushed, push, markStart, checked_eq]

@[simp]
theorem ChangeBatcher.pushed_batchTx (c : Change) (now : Instant) :
    (b.pushed c now).batchTx = b.batchTx := by
  rw [pushed, push, markStart, checked_eq]

@[simp]
theorem ChangeBatcher.pushed_config (c : Change) (now : Instant) :
    (b.pushed c now).config = b.config := by
  rw [pushed, push, markStart, checked_eq]

theorem ChangeBatcher.shouldFlushSize_pushed (c : Change) (now : Instant) :
    (b.pushed c now).shouldFlushSize = true ↔ b.config.maxBatchSize ≤ b.pending.length + 1 := by
  simp [shouldFlushSize]

theorem ChangeBatcher.pending_ne_of_ageCheck {now : Instant} (hage : b.ageCheck now = true) :
    b.pending ≠ [] := by
  unfold ageCheck at hage
  split at hage
  · rw [Bool.and_eq_true, decide_eq_true_eq, decide_eq_true_eq] at hage
    exact List.ne_nil_of_length_pos hage.2
  · contradiction

/-- A batcher with the given changes pending that differs from another one in nothing but
these, its timer and its flag. -/
structure ChangeBatcher.Holds (b : ChangeBatcher) (changes : List Change) (p : ChangeBatcher) :
    Prop where
  config : p.config = b.config
  sequence : p.sequence = b.sequence
  batchTx : p.batchTx = b.batchTx
  pending : p.pending = changes

theorem ChangeBatcher.holds_pushed (b : ChangeBatcher) (c : Change) (now : Instant) :
    b.Holds (b.pending ++ [c]) (b.pushed c now) where
  config := pushed_config c now
  sequence := by rw [pushed, push, markStart, checked_sequence]
  batchTx := pushed_batchTx c now
  pending := pushed_pending c now

theorem ChangeBatcher.holds_self (b : ChangeBatcher) : b.Holds (b.pending ++ []) b where
  config := rfl
  sequence := rfl
  batchTx := rfl
  pending := (List.append_nil _).symm

/-- An operation that comes to no send reports nothing and only adds to what is pending. -/
theorem BatchCall.run_holds {call : BatchCall} (hquiet : ¬ call.Sends b) :
    (call.run b).2 = false ∧ b.Holds (b.pending ++ call.adds) (call.run b).1 := by
  cases call with
  | add c now =>
      rw [Sends, not_or, Bool.not_eq_false] at hquiet
      have hsmall := mt (ChangeBatcher.shouldFlushSize_pushed c now).mp hquiet.2
      have hrun : b.add c now = (b.pushed c now, false) := by
        rw [ChangeBatcher.add_enabled hquiet.1, ChangeBatcher.checkFlush, if_neg hsmall]
      rw [run, hrun]
      exact ⟨rfl, b.holds_pushed c now⟩
  | forceFlush now =>
      have hnil : b.pending = [] := not_not.mp hquiet
      rw [run, ChangeBatcher.forceFlush, ChangeBatcher.flush_nil hnil]
      exact ⟨rfl, b.holds_self⟩
  | ageTick now =>
      have hyoung : b.ageCheck now = false := Bool.not_eq_true _ ▸ hquiet
      rw [run, ChangeBatcher.ageTick, hyoung]
      exact ⟨rfl, b.holds_self⟩

/-- It leaves the channel alone. -/
theorem BatchCall.run_quiet {call : BatchCall} (hquiet : ¬ call.Sends b) :
    (call.run b).2 = false ∧ (call.run b).1.batchTx = b.batchTx ∧
      (call.run b).1.pending = b.pending ++ call.adds := by
  rcases run_holds hquiet with ⟨hanswer, hholds⟩
  exact ⟨hanswer, hholds.batchTx, hholds.pending⟩

/-- An operation that comes to a send flushes what is pending and what it adds, unless it is
an addition with batching disabled. -/
theorem BatchCall.run_flushes {call : BatchCall} (hsends : call.Sends b)
    (henabled : call.adds ≠ [] → b.config.enabled = true) :
    ∃ p now, b.Holds (b.pending ++ call.adds) p ∧ p.pending ≠ [] ∧ call.run b = p.flush now := by
  cases call with
  | add c now =>
      have henabled' := henabled (List.cons_ne_nil c [])
      have hlarge := hsends.resolve_left (by simp [henabled'])
      have hfull := (ChangeBatcher.shouldFlushSize_pushed c now).mpr hlarge
      refine ⟨b.pushed c now, now, b.holds_pushed c now, by simp, ?_⟩
      rw [run, ChangeBatcher.add_enabled henabled', ChangeBatcher.checkFlush, if_pos hfull]
  | forceFlush now => exact ⟨b, now, b.holds_self, hsends, rfl⟩
  | ageTick now =>
      have hage : b.ageCheck now = true := hsends
      refine ⟨b, now, b.holds_self, ChangeBatcher.pending_ne_of_ageCheck hsends, ?_⟩
      rw [run, ChangeBatcher.ageTick, if_pos hage, hage, Bool.true_and]

/-- An operation that comes to a send moves changes into a batch before it sends. -/
theorem BatchCall.run_sends {call : BatchCall} (hsends : call.Sends b) :
    ∃ (b' : ChangeBatcher) (batch : ChangeBatch), (call.run b).1 = (b'.send batch).1 ∧
      b'.batchTx = b.batchTx ∧ batch.changes ≠ [] ∧
      ∀ c, b'.pending.count c + batch.changes.count c =
        b.pending.count c + call.adds.count c := by
  by_cases henabled : call.adds ≠ [] → b.config.enabled = true
  · rcases run_flushes hsends henabled with ⟨p, now, hholds, hne, hrun⟩
    refine ⟨p.sealed, p.sealedBatch now, ?_, hholds.batchTx, hne, fun c => ?_⟩
    · rw [hrun, ChangeBatcher.flush_of_ne hne]
    · have hcount := congrArg (List.count c) hholds.pending
      rw [List.count_append] at hcount
      rw [← hcount]
      exact Nat.zero_add _
  · rw [Classical.not_imp, Bool.not_eq_true] at henabled
    cases call with
    | add c now =>
        refine ⟨{ b.checked with sequence := b.sequence + 1 },
          ChangeBatch.new [c] (b.sequence + 1) now, ?_, ?_, List.cons_ne_nil _ _, ?_⟩
        · rw [run, ChangeBatcher.add_disabled henabled.2]
        · rw [ChangeBatcher.checked_eq]
        · intro x
          rw [ChangeBatcher.checked_eq]
          rfl
    | forceFlush now => exact absurd rfl henabled.1
    | ageTick now => exact absurd rfl henabled.1

/-- If the channel takes the batch, the changes are in the channel. -/
theorem BatchCall.run_sent {call : BatchCall} (hsends : call.Sends b)
    (haccepts : b.batchTx.Accepts) :
    ∃ batch, batch.changes ≠ [] ∧
      (call.run b).1.batchTx = { b.batchTx with queue := b.batchTx.queue ++ [batch] } ∧
      ∀ c, (call.run b).1.pending.count c + batch.changes.count c =
        b.pending.count c + call.adds.count c := by
  rcases run_sends hsends with ⟨b', batch, hrun, hchannel, hne, hcount⟩
  rw [← hchannel] at haccepts
  rw [hrun, ChangeBatcher.send_accepted haccepts, ← hchannel]
  exact ⟨batch, hne, rfl, hcount⟩

/-- If it does not, they are nowhere. -/
theorem BatchCall.run_refused {call : BatchCall} (hsends : call.Sends b)
    (hrefuses : ¬ b.batchTx.Accepts) :
    (call.run b).1.batchTx = b.batchTx ∧
      ∃ c, (call.run b).1.pending.count c < b.pending.count c + call.adds.count c := by
  rcases run_sends hsends with ⟨b', batch, hrun, hchannel, hne, hcount⟩
  rw [← hchannel] at hrefuses
  rw [hrun, ChangeBatcher.send_refused hrefuses]
  refine ⟨hchannel, ?_⟩
  rcases List.exists_mem_of_ne_nil _ hne with ⟨c, hc⟩
  have hpos := List.count_pos_iff.mpr hc
  refine ⟨c, ?_⟩
  rw [← hcount c]
  exact Nat.lt_add_of_pos_right hpos

end Calls

/-! ## One step -/

/-- Nothing is lost so far, and no batch in the channel is empty. -/
structure Lossless (s : Batching) : Prop where
  conserved : Conserved s
  nonempty : ∀ batch ∈ s.batcher.batchTx.queue, batch.changes ≠ []

/-- No step leaves an empty batch in the channel. -/
theorem nonempty_next {s : Batching}
    (hnonempty : ∀ batch ∈ s.batcher.batchTx.queue, batch.changes ≠ []) (e : BatchEvent) :
    ∀ batch ∈ (s.next e).batcher.batchTx.queue, batch.changes ≠ [] := by
  cases e with
  | call call =>
      by_cases hsends : call.Sends s.batcher
      · by_cases haccepts : s.batcher.batchTx.Accepts
        · rcases BatchCall.run_sent hsends haccepts with ⟨batch, hne, hchannel, _⟩
          intro batch' hmem
          simp only [Batching.next, hchannel, List.mem_append, List.mem_singleton] at hmem
          rcases hmem with hold | rfl
          · exact hnonempty batch' hold
          · exact hne
        · simpa only [Batching.next, (BatchCall.run_refused hsends haccepts).1] using hnonempty
      · simpa only [Batching.next, (BatchCall.run_quiet hsends).2.1] using hnonempty
  | recv =>
      unfold Batching.next Channel.recv
      cases hqueue : s.batcher.batchTx.queue with
      | nil => simp [hqueue]
      | cons batch rest =>
          intro batch' hmem
          exact hnonempty batch' (hqueue ▸ List.mem_cons_of_mem _ hmem)
  | close => exact hnonempty
  | dropReceiver => simp [Batching.next, ChangeBatcher.withChannel, Channel.dropReceiver]

/-- An operation that meets the condition is sound. -/
theorem Lossless.soundCall_of_delivers {s : Batching} (h : Lossless s) {e : BatchEvent}
    (hdelivers : Delivers s e) : SoundCall s e := by
  have hconserved := h.conserved
  cases e with
  | call call =>
      by_cases hsends : call.Sends s.batcher
      · rcases BatchCall.run_sent hsends (hdelivers hsends) with ⟨batch, _, hchannel, hcount⟩
        refine ⟨fun c => ?_, fun _ => ⟨batch, ?_⟩⟩
        · have hc := hcount c
          have hbefore := hconserved c
          simp only [Batching.next, hchannel, changesOf_append, changesOf_cons, changesOf_nil,
            List.append_nil, List.count_append]
          omega
        · rw [Batching.next, hchannel]
      · rcases BatchCall.run_quiet hsends with ⟨hanswer, hchannel, hpending⟩
        refine ⟨fun c => ?_, fun hreport => ?_⟩
        · have hbefore := hconserved c
          simp only [Batching.next, hchannel, hpending, List.count_append]
          omega
        · rw [Batching.answer, hanswer] at hreport
          contradiction
  | recv =>
      refine ⟨fun c => ?_, by simp [Batching.answer]⟩
      have hbefore := hconserved c
      unfold Batching.next Channel.recv
      cases hqueue : s.batcher.batchTx.queue with
      | nil => simpa only [hqueue] using hbefore
      | cons batch rest =>
          rw [hqueue] at hbefore
          simp only [changesOf_cons, changesOf_append, changesOf_nil, List.append_nil,
            List.count_append, ChangeBatcher.withChannel] at hbefore ⊢
          omega
  | close => exact ⟨hconserved, by simp [Batching.answer]⟩
  | dropReceiver =>
      have hempty : s.batcher.batchTx.queue = [] := hdelivers
      refine ⟨fun c => ?_, by simp [Batching.answer]⟩
      have hbefore := hconserved c
      rw [hempty] at hbefore
      exact hbefore

/-- No other operation is. -/
theorem Lossless.delivers_of_soundCall {s : Batching} (h : Lossless s) {e : BatchEvent}
    (hsound : SoundCall s e) : Delivers s e := by
  have hconserved := h.conserved
  cases e with
  | call call =>
      intro hsends
      by_contra hrefuses
      rcases BatchCall.run_refused hsends hrefuses with ⟨hchannel, c, hlost⟩
      have hbefore := hconserved c
      have hafter := hsound.1 c
      simp only [Batching.next, hchannel, List.count_append] at hafter
      omega
  | recv => trivial
  | close => trivial
  | dropReceiver =>
      -- a batch that is dropped with the receiver holds a change that is then nowhere
      by_contra hqueue
      rcases List.exists_mem_of_ne_nil _ hqueue with ⟨batch, hbatch⟩
      rcases List.exists_mem_of_ne_nil _ (h.nonempty batch hbatch) with ⟨c, hc⟩
      have hpos : 0 < (changesOf s.batcher.batchTx.queue).count c :=
        List.count_pos_iff.mpr (List.mem_flatMap.mpr ⟨batch, hbatch, hc⟩)
      have hbefore := hconserved c
      have hafter := hsound.1 c
      simp only [Batching.next, ChangeBatcher.withChannel, Channel.dropReceiver, changesOf_nil,
        List.count_nil] at hafter
      omega

/-! ## Runs -/

/-- From a batcher without changes the sound runs are those whose steps all meet
the condition. -/
theorem along_soundCall_iff {b : ChangeBatcher} (hpending : b.pending = [])
    (hqueue : b.batchTx.queue = []) (events : List BatchEvent) :
    batching.Along SoundCall (Batching.start b) events ↔
      batching.Along Delivers (Batching.start b) events := by
  have hstart : Lossless (Batching.start b) :=
    ⟨fun c => by simp [Batching.start, hpending, hqueue], by simp [Batching.start, hqueue]⟩
  exact along_iff (fun s e h hsound => ⟨hsound.1, nonempty_next h.nonempty e⟩)
    (fun s e h => ⟨h.delivers_of_soundCall, h.soundCall_of_delivers⟩) hstart events

/-- An operation comes to no send. -/
def Silent (s : Batching) : BatchEvent → Prop
  | .call call => ¬ call.Sends s.batcher
  | _ => True

/-- Nobody receives from an empty channel. -/
def Abandoned (s : Batching) : Prop :=
  s.batcher.batchTx.receiverAlive = false ∧ s.batcher.batchTx.queue = []

theorem Abandoned.refuses {s : Batching} (h : Abandoned s) : ¬ s.batcher.batchTx.Accepts := by
  intro haccepts
  have hdead := h.1
  rw [haccepts.1] at hdead
  contradiction

/-- Into an abandoned channel nothing can be delivered. -/
theorem Abandoned.delivers_iff {s : Batching} (h : Abandoned s) (e : BatchEvent) :
    Delivers s e ↔ Silent s e := by
  cases e with
  | call call =>
      exact ⟨fun hdelivers hsends => h.refuses (hdelivers hsends),
        fun hsilent hsends => absurd hsends hsilent⟩
  | recv => exact Iff.rfl
  | close => exact Iff.rfl
  | dropReceiver => exact ⟨fun _ => trivial, fun _ => h.2⟩

theorem Abandoned.next {s : Batching} (h : Abandoned s) (e : BatchEvent) :
    Abandoned (s.next e) := by
  cases e with
  | call call =>
      have hchannel : (call.run s.batcher).1.batchTx = s.batcher.batchTx := by
        by_cases hsends : call.Sends s.batcher
        · exact (BatchCall.run_refused hsends h.refuses).1
        · exact (BatchCall.run_quiet hsends).2.1
      simpa only [Abandoned, Batching.next, hchannel] using h
  | recv =>
      have hrecv : s.batcher.batchTx.recv = none := by
        rw [Channel.recv, h.2]
      simpa only [Batching.next, hrecv] using h
  | close => exact ⟨rfl, h.2⟩
  | dropReceiver => exact ⟨rfl, rfl⟩

/-- A run of a new batcher over any channel is sound if and only if all its sends
find the channel open and not full and the receiver drops no batch.  A run of the
batcher of a batching sync manager is sound if and only if it comes to no send. -/
theorem conserved_iff (config : BatchConfig) :
    (∀ capacity receiverAlive events,
      batching.Along SoundCall
          (Batching.start (ChangeBatcher.new config ⟨capacity, [], receiverAlive⟩)) events ↔
        batching.Along Delivers
          (Batching.start (ChangeBatcher.new config ⟨capacity, [], receiverAlive⟩)) events) ∧
    ∀ m events,
      batching.Along SoundCall (Batching.start (BatchingSyncManager.new m config).batcher) events ↔
        batching.Along Silent (Batching.start (BatchingSyncManager.new m config).batcher)
          events := by
  refine ⟨fun capacity receiverAlive events => along_soundCall_iff rfl rfl events,
    fun m events => ?_⟩
  rw [along_soundCall_iff rfl rfl]
  have habandoned : Abandoned (Batching.start (BatchingSyncManager.new m config).batcher) :=
    ⟨rfl, rfl⟩
  exact along_iff (fun s e h _ => h.next e) (fun s e h => h.delivers_iff e) habandoned events

/-- The second of two batches does not fit into a channel of capacity one and is
lost; with batching disabled the addition also reports that it was sent; and what
a batching sync manager flushes is always lost. -/
theorem not_conserved_refused :
    ¬ batching.Along SoundCall
        (Batching.start (ChangeBatcher.new ⟨1, 100, true⟩ (Channel.new 1)))
        [.call (.add sampleChange 0), .call (.add otherChange 1)] ∧
    ¬ batching.Along SoundCall
        (Batching.start (ChangeBatcher.new ⟨1, 100, false⟩ (Channel.new 1).dropReceiver))
        [.call (.add sampleChange 0)] ∧
    ¬ batching.Along SoundCall
        (Batching.start (BatchingSyncManager.new (SyncManager.new 100) .default).batcher)
        [.call (.add sampleChange 0), .call (.forceFlush 1)] := by
  refine ⟨?_, ?_, ?_⟩
  · intro hsound
    exact absurd (hsound.2.1.1 otherChange) (by decide)
  · intro hsound
    exact absurd (hsound.1.1 sampleChange) (by decide)
  · intro hsound
    exact absurd (hsound.2.1.1 sampleChange) (by decide)

end Batch

end IrohSync
