import Mathlib.Algebra.Order.Ring.Nat
import IrohSync.Batch.Conservation

/-!
# The stream of batches

With batching enabled and a channel that never refuses, every operation of the batcher that
comes to a send puts the batch of all that waits into the channel.  What was sent so far is
what was received and what is still in the channel.

Main results:

- Theorem {lit}`BatchCall.sendsBatch`: an operation that comes to a send sends a batch.
- Theorem {lit}`Streamed.next`: the numbers, sizes and contents of the batches, step by step.
- Theorem {lit}`batch_stream`: the stream of batches after any run.
-/

namespace IrohSync

namespace Batch

open Machine

/-! ## One operation -/

section Calls

variable {b : ChangeBatcher}

/-- What an operation that sent a batch leaves. -/
structure BatchCall.SendsBatch (b : ChangeBatcher) (call : BatchCall) (batch : ChangeBatch) :
    Prop where
  answer : (call.run b).2 = true
  changes : batch.changes = b.pending ++ call.adds
  changes_ne_nil : batch.changes ≠ []
  number : batch.sequence = b.sequence + 1
  config : (call.run b).1.config = b.config
  sequence : (call.run b).1.sequence = b.sequence + 1
  pending : (call.run b).1.pending = []
  batchTx : (call.run b).1.batchTx = { b.batchTx with queue := b.batchTx.queue ++ [batch] }

/-- An operation that comes to a send of a channel that takes the batch sends one. -/
theorem BatchCall.sendsBatch {call : BatchCall} (henabled : b.config.enabled = true)
    (hsends : call.Sends b) (haccepts : b.batchTx.Accepts) : ∃ batch, SendsBatch b call batch := by
  rcases run_flushes hsends (fun _ => henabled) with ⟨p, now, hholds, hne, hrun⟩
  have haccepts' : p.sealed.batchTx.Accepts := by
    rw [← hholds.batchTx] at haccepts
    exact haccepts
  rw [ChangeBatcher.flush_of_ne hne, ChangeBatcher.send_accepted haccepts'] at hrun
  refine ⟨p.sealedBatch now, ⟨?_, hholds.pending, hne, ?_, ?_, ?_, ?_, ?_⟩⟩
  · rw [hrun]
  · rw [← hholds.sequence]
    rfl
  · rw [hrun, ← hholds.config]
    rfl
  · rw [hrun, ← hholds.sequence]
    rfl
  · rw [hrun]
    rfl
  · rw [hrun, ← hholds.batchTx]
    rfl

end Calls

/-! ## One step -/

/-- Every batch that was sent: those that were received and those in the channel. -/
def Batching.sent (s : Batching) : List ChangeBatch :=
  s.received ++ s.batcher.batchTx.queue

/-- What was sent, with batches of at most the given size: the batches are numbered from one
on in a counter of 64 bits, none of them is empty or too large, fewer changes than one batch
holds are waiting, and together this is what was added. -/
structure Stream (size : Nat) (s : Batching) : Prop where
  numbered : s.sent.map (fun batch => batch.sequence.toNat) =
    (List.range s.sent.length).map fun i => (i + 1) % 2 ^ 64
  nonempty : ∀ batch ∈ s.sent, batch.changes ≠ []
  bounded : ∀ batch ∈ s.sent, batch.changes.length ≤ size
  waiting : s.batcher.pending.length < size
  contents : changesOf s.sent ++ s.batcher.pending = s.added

/-- The stream and the counter of a batcher that is enabled. -/
structure Streamed (config : BatchConfig) (s : Batching) : Prop extends
    Stream (max config.maxBatchSize 1) s where
  config_eq : s.batcher.config = config
  counter : s.batcher.sequence.toNat = s.sent.length % 2 ^ 64

/-- An addition reports a flush exactly if it sent a batch, and then a full one. -/
def SendsFull (size : Nat) (s : Batching) : BatchEvent → Prop
  | .call (.add change now) =>
      (s.answer (.call (.add change now)) = true ↔
        ∃ batch, (s.next (.call (.add change now))).sent = s.sent ++ [batch]) ∧
      ∀ batch, (s.next (.call (.add change now))).sent = s.sent ++ [batch] →
        batch.changes.length = size
  | _ => True

section Steps

variable {config : BatchConfig} {s : Batching}

/-- Whatever the receiver does, the batcher has only another channel, and if the receiver
goes only when the channel is empty, then what was sent stays. -/
theorem Batching.next_receiver {e : BatchEvent} (hreceiver : ∀ call, e ≠ .call call)
    (hdelivers : Delivers s e) :
    (s.next e).sent = s.sent ∧ (s.next e).added = s.added ∧
      ∃ batchTx, (s.next e).batcher = s.batcher.withChannel batchTx := by
  cases e with
  | call call => exact absurd rfl (hreceiver call)
  | recv =>
      unfold Batching.next Channel.recv Batching.sent
      cases hqueue : s.batcher.batchTx.queue with
      | nil => exact ⟨by rw [hqueue], rfl, s.batcher.batchTx, rfl⟩
      | cons batch rest => exact ⟨by simp [ChangeBatcher.withChannel], rfl, _, rfl⟩
  | close => exact ⟨rfl, rfl, _, rfl⟩
  | dropReceiver =>
      have hempty : s.batcher.batchTx.queue = [] := hdelivers
      refine ⟨?_, rfl, _, rfl⟩
      rw [Batching.sent, Batching.sent, hempty]
      rfl

/-- A step that sends a batch. -/
theorem sent_next_sendsBatch {call : BatchCall} {batch : ChangeBatch}
    (h : call.SendsBatch s.batcher batch) : (s.next (.call call)).sent = s.sent ++ [batch] := by
  simp only [Batching.sent, Batching.next, h.batchTx, List.append_assoc]

/-- A step that comes to no send. -/
theorem sent_next_quiet {call : BatchCall}
    (h : s.batcher.Holds (s.batcher.pending ++ call.adds) (call.run s.batcher).1) :
    (s.next (.call call)).sent = s.sent := by
  simp only [Batching.sent, Batching.next, h.batchTx]

/-- With what an operation adds, what waits is not more than a full batch. -/
theorem Streamed.length_le (h : Streamed config s) (call : BatchCall) :
    (s.batcher.pending ++ call.adds).length ≤ max config.maxBatchSize 1 := by
  have hwaiting := h.waiting
  have hadds : call.adds.length ≤ 1 := by
    cases call with
    | add => exact Nat.le_refl 1
    | forceFlush => exact Nat.zero_le 1
    | ageTick => exact Nat.zero_le 1
  rw [List.length_append]
  omega

/-- A batch that is sent goes on with the stream. -/
theorem Streamed.next_sendsBatch (h : Streamed config s) {call : BatchCall} {batch : ChangeBatch}
    (hbatch : call.SendsBatch s.batcher batch) : Streamed config (s.next (.call call)) := by
  have hsent := sent_next_sendsBatch hbatch
  have hnumber : batch.sequence.toNat = (s.sent.length + 1) % 2 ^ 64 := by
    rw [hbatch.number, UInt64.toNat_add, h.counter, UInt64.toNat_one, Nat.mod_add_mod]
  have hpending : (s.next (.call call)).batcher.pending = [] := hbatch.pending
  have hsequence : (s.next (.call call)).batcher.sequence = batch.sequence := by
    rw [hbatch.number]
    exact hbatch.sequence
  have hadded : (s.next (.call call)).added = s.added ++ call.adds := rfl
  constructor
  · constructor
    · rw [hsent, List.map_append, h.numbered, List.length_append, List.length_singleton,
        List.range_succ, List.map_append, List.map_singleton, List.map_singleton, hnumber]
    · rw [hsent]
      exact List.forall_mem_append.mpr
        ⟨h.nonempty, List.forall_mem_singleton.mpr hbatch.changes_ne_nil⟩
    · rw [hsent]
      refine List.forall_mem_append.mpr ⟨h.bounded, List.forall_mem_singleton.mpr ?_⟩
      rw [hbatch.changes]
      exact h.length_le call
    · rw [hpending, List.length_nil]
      omega
    · rw [hsent, hpending, hadded, ← h.contents, changesOf_append, changesOf_cons, changesOf_nil,
        hbatch.changes, List.append_nil, List.append_nil, List.append_assoc]
  · exact hbatch.config.trans h.config_eq
  · rw [hsequence, hnumber, hsent, List.length_append, List.length_singleton]

/-- Without a send a change may come to those that wait. -/
theorem Streamed.next_quiet (h : Streamed config s) {call : BatchCall}
    (hquiet : ¬ call.Sends s.batcher) : Streamed config (s.next (.call call)) := by
  rcases BatchCall.run_holds hquiet with ⟨_, hholds⟩
  have hsent := sent_next_quiet hholds
  have hpending : (s.next (.call call)).batcher.pending = s.batcher.pending ++ call.adds :=
    hholds.pending
  have hsequence : (s.next (.call call)).batcher.sequence = s.batcher.sequence :=
    hholds.sequence
  have hadded : (s.next (.call call)).added = s.added ++ call.adds := rfl
  constructor
  · constructor
    · rw [hsent, h.numbered]
    · rw [hsent]
      exact h.nonempty
    · rw [hsent]
      exact h.bounded
    · rw [hpending, List.length_append]
      have hwaiting := h.waiting
      cases call with
      | add c now =>
          -- what waits is at least two changes short of a full batch
          rw [BatchCall.Sends, not_or, h.config_eq] at hquiet
          have hone : (BatchCall.add c now).adds.length = 1 := rfl
          omega
      | forceFlush now => exact hwaiting
      | ageTick now => exact hwaiting
    · rw [hsent, hpending, hadded, ← List.append_assoc, h.contents]
  · exact hholds.config.trans h.config_eq
  · rw [hsent, hsequence, h.counter]

/-- The receiver does not change the stream. -/
theorem Streamed.next_receiver (h : Streamed config s) {e : BatchEvent}
    (hreceiver : ∀ call, e ≠ .call call) (hdelivers : Delivers s e) :
    Streamed config (s.next e) := by
  rcases Batching.next_receiver hreceiver hdelivers with ⟨hsent, hadded, batchTx, hbatcher⟩
  have hpending : (s.next e).batcher.pending = s.batcher.pending := by
    rw [hbatcher]
    rfl
  constructor
  · constructor
    · rw [hsent, h.numbered]
    · rw [hsent]
      exact h.nonempty
    · rw [hsent]
      exact h.bounded
    · rw [hpending]
      exact h.waiting
    · rw [hsent, hpending, hadded, h.contents]
  · rw [hbatcher]
    exact h.config_eq
  · rw [hbatcher, hsent]
    exact h.counter

/-- Every step keeps the stream. -/
theorem Streamed.next (h : Streamed config s) (henabled : config.enabled = true)
    {e : BatchEvent} (hdelivers : Delivers s e) : Streamed config (s.next e) := by
  cases e with
  | call call =>
      by_cases hsends : call.Sends s.batcher
      · have henabled' := henabled
        rw [← h.config_eq] at henabled'
        rcases BatchCall.sendsBatch henabled' hsends (hdelivers hsends) with ⟨batch, hbatch⟩
        exact h.next_sendsBatch hbatch
      · exact h.next_quiet hsends
  | recv => exact h.next_receiver (by simp) hdelivers
  | close => exact h.next_receiver (by simp) hdelivers
  | dropReceiver => exact h.next_receiver (by simp) hdelivers

/-- An addition sends a batch exactly if that is a full one. -/
theorem Streamed.sendsFull (h : Streamed config s) (henabled : config.enabled = true)
    {e : BatchEvent} (hdelivers : Delivers s e) :
    SendsFull (max config.maxBatchSize 1) s e := by
  rw [← h.config_eq] at henabled
  cases e with
  | call call =>
      cases call with
      | add c now =>
          by_cases hsends : (BatchCall.add c now).Sends s.batcher
          · rcases BatchCall.sendsBatch henabled hsends (hdelivers hsends) with ⟨batch, hbatch⟩
            have hsent := sent_next_sendsBatch hbatch
            refine ⟨iff_of_true hbatch.answer ⟨batch, hsent⟩, fun batch' hsent' => ?_⟩
            rw [hsent, List.append_cancel_left_eq, List.singleton_inj] at hsent'
            have hlarge := hsends.resolve_left (by simp [henabled])
            have hmost := h.length_le (.add c now)
            rw [h.config_eq] at hlarge
            rw [← hsent', hbatch.changes]
            simp only [BatchCall.adds, List.length_append, List.length_singleton] at hmost ⊢
            omega
          · rcases BatchCall.run_holds hsends with ⟨hanswer, hholds⟩
            have hsent := sent_next_quiet hholds
            have hnone : ∀ batch, (s.next (.call (.add c now))).sent ≠ s.sent ++ [batch] := by
              intro batch hbatch
              rw [hsent] at hbatch
              simp at hbatch
            refine ⟨iff_of_false ?_ (not_exists.mpr hnone), fun batch hbatch => ?_⟩
            · rw [Batching.answer, hanswer]
              exact Bool.false_ne_true
            · exact absurd hbatch (hnone batch)
      | forceFlush now => trivial
      | ageTick now => trivial
  | recv => trivial
  | close => trivial
  | dropReceiver => trivial

end Steps

/-! ## Runs -/

/-- Before the first operation nothing was sent. -/
theorem streamed_start (config : BatchConfig) {channel : Channel ChangeBatch}
    (hempty : channel.queue = []) :
    Streamed config (Batching.start (ChangeBatcher.new config channel)) := by
  have hsent : (Batching.start (ChangeBatcher.new config channel)).sent = [] := hempty
  constructor
  · constructor
    · rw [hsent]
      rfl
    · rw [hsent]
      exact List.forall_mem_nil _
    · rw [hsent]
      exact List.forall_mem_nil _
    · exact Nat.lt_of_lt_of_le Nat.one_pos (Nat.le_max_right _ _)
    · rw [hsent]
      rfl
  · rfl
  · rw [hsent]
    rfl

/-- With batching enabled and a channel that never refuses, whatever is done: what was sent
is a stream of batches, and every addition reports a flush exactly if it sent a batch, which
is then a full one. -/
theorem batch_stream (config : BatchConfig) (henabled : config.enabled = true)
    (channel : Channel ChangeBatch) (hempty : channel.queue = []) (events : List BatchEvent)
    (hdelivers : batching.Along Delivers
      (Batching.start (ChangeBatcher.new config channel)) events) :
    Stream (max config.maxBatchSize 1)
        (batching.run (Batching.start (ChangeBatcher.new config channel)) events) ∧
      batching.Along (SendsFull (max config.maxBatchSize 1))
        (Batching.start (ChangeBatcher.new config channel)) events := by
  have hstart := streamed_start config hempty
  have hstep : ∀ s e, Streamed config s → Delivers s e → Streamed config (batching.next s e) :=
    fun _ _ h hdelivers => h.next henabled hdelivers
  constructor
  · exact (run_invariant hstep hstart hdelivers).toStream
  · exact hdelivers.of_invariant hstep (fun _ _ h hdelivers => h.sendsFull henabled hdelivers)
      hstart

/-- Batches of two changes, and one that is forced. -/
theorem batch_stream_sample :
    Stream (max 2 1) (batching.run (Batching.start (ChangeBatcher.new ⟨2, 100, true⟩
        (Channel.new 5))) [.call (.add sampleChange 0), .call (.add otherChange 1), .recv,
          .call (.add sampleChange 2), .call (.forceFlush 3)]) ∧
      batching.Along (SendsFull (max 2 1)) (Batching.start (ChangeBatcher.new ⟨2, 100, true⟩
        (Channel.new 5))) [.call (.add sampleChange 0), .call (.add otherChange 1), .recv,
          .call (.add sampleChange 2), .call (.forceFlush 3)] :=
  batch_stream ⟨2, 100, true⟩ rfl (Channel.new 5) rfl _
    ⟨fun _ => by decide, fun _ => by decide, trivial, fun _ => by decide, fun _ => by decide,
      trivial⟩

/-- Additions of one change, each followed by a step of the receiver. -/
def rounds (n : Nat) : List BatchEvent :=
  (List.replicate n [.call (.add sampleChange 0), .recv]).flatten

/-- Batches of one change that are received at once never fill a channel. -/
theorem rounds_run (n : Nat) {s : Batching} (hconfig : s.batcher.config = ⟨1, 100, true⟩)
    (hchannel : s.batcher.batchTx = Channel.new 1) :
    batching.Along Delivers s (rounds n) ∧
      (batching.run s (rounds n)).sent.length = s.sent.length + n := by
  induction n generalizing s with
  | zero => exact ⟨trivial, rfl⟩
  | succ n ih =>
      have hsends : (BatchCall.add sampleChange 0).Sends s.batcher := by
        rw [BatchCall.Sends, hconfig]
        exact Or.inr (Nat.le_add_left 1 _)
      have haccepts : s.batcher.batchTx.Accepts := by
        rw [hchannel]
        decide
      rcases BatchCall.sendsBatch (by rw [hconfig]) hsends haccepts with ⟨batch, hbatch⟩
      have hsent := sent_next_sendsBatch hbatch
      let added := s.next (.call (.add sampleChange 0))
      have hqueue : added.batcher.batchTx = ⟨1, [batch], true⟩ := by
        have hchannel' := hbatch.batchTx
        rw [hchannel] at hchannel'
        exact hchannel'
      have hnext : (added.next .recv).batcher = added.batcher.withChannel (Channel.new 1) := by
        unfold Batching.next
        rw [hqueue]
        rfl
      have hreceived : (added.next .recv).sent = s.sent ++ [batch] :=
        (Batching.next_receiver (s := added) (e := .recv) (by simp) trivial).1.trans hsent
      rcases ih (s := added.next .recv) (by rw [hnext]; exact hbatch.config.trans hconfig)
        (by rw [hnext]; rfl) with ⟨halong, hlength⟩
      refine ⟨⟨fun _ => haccepts, trivial, halong⟩, ?_⟩
      rw [hreceived, List.length_append, List.length_singleton, Nat.add_assoc,
        Nat.add_comm 1 n] at hlength
      exact hlength

/-- The last of 2^64 batches has the number zero. -/
theorem not_numbered_wrapped :
    batching.Along Delivers (Batching.start (ChangeBatcher.new ⟨1, 100, true⟩ (Channel.new 1)))
        (rounds (2 ^ 64)) ∧
      (batching.run (Batching.start (ChangeBatcher.new ⟨1, 100, true⟩ (Channel.new 1)))
          (rounds (2 ^ 64))).sent.map (fun batch => batch.sequence.toNat) ≠
        List.range' 1 (2 ^ 64) := by
  let s := Batching.start (ChangeBatcher.new ⟨1, 100, true⟩ (Channel.new 1))
  rcases rounds_run (s := s) (2 ^ 64) rfl rfl with ⟨hdelivers, hlength⟩
  have hstreamed := run_invariant (I := Streamed ⟨1, 100, true⟩)
    (fun _ _ h hdelivers => h.next rfl hdelivers) (streamed_start ⟨1, 100, true⟩ rfl) hdelivers
  refine ⟨hdelivers, fun hnumbers => ?_⟩
  have hzero : 0 ∈ List.range' 1 (2 ^ 64) := by
    rw [← hnumbers, hstreamed.numbered, hlength]
    refine List.mem_map.mpr ⟨2 ^ 64 - 1, List.mem_range.mpr ?_, rfl⟩
    exact Nat.lt_of_lt_of_le (by decide) (Nat.le_add_left _ _)
  exact absurd (List.mem_range'_1.mp hzero).1 (by decide)

end Batch

end IrohSync
