import Mathlib.Algebra.Order.Ring.Nat
import IrohSync.Batch.Interleaving
import IrohSync.Lib.Checked

/-!
# The order of batches

A flush takes the pending changes, draws a number for them and sends the batch in
three separate steps.  Batches are in the order of the changes as long as flushes
draw their numbers in the order in which they took the changes, and send their
batches in the order of the numbers.

Main results:

- Theorem {lit}`InStep.next`: what every step keeps that meets this condition.
- Theorem {lit}`batches_in_order`: the order in which batches are received and
  what they hold, in every interleaving of such steps.
-/

namespace IrohSync

namespace Batch

open Machine

/-! ## What is expected of an interleaving -/

/-- Batches sorted by their sequence numbers. -/
def inSequence (batches : List ChangeBatch) : List ChangeBatch :=
  batches.mergeSort fun x y => x.sequence ≤ y.sequence

/-- Batches come in increasing order of their sequence numbers, and in the order of
the sequence numbers their changes are those that were pushed; nothing is missing
when no call is in progress, nothing is pending and the channel is empty. -/
structure ReceivedInOrder (s : Interleaved) : Prop where
  increasing : (s.received.map ChangeBatch.sequence).Pairwise (· < ·)
  contents : changesOf (inSequence s.received) <+: s.pushed
  complete : s.tasks = [] → s.batcher.pending = [] → s.batcher.batchTx.queue = [] →
    changesOf (inSequence s.received) = s.pushed

/-- The changes that a flush has taken and that have no number yet. -/
def Task.taken : Task → Option (List Change)
  | .draw changes => some changes
  | _ => none

/-- The batch that a call is about to send. -/
def Task.sealed : Task → Option ChangeBatch
  | .send batch => some batch
  | _ => none

/-- The part draws a sequence number. -/
def Task.draws (b : ChangeBatcher) : Task → Bool
  | .draw _ => true
  | .add _ => !b.config.enabled
  | _ => false

/-- A batch that is sent finds the channel open and not full. -/
def Roomy (s : Interleaved) : Turn → Prop
  | .step i _ => ∀ t ∈ s.tasks[i]?, t.sealed ≠ none → s.batcher.batchTx.Accepts
  | _ => True

instance (s : Interleaved) : ∀ turn, Decidable (Roomy s turn)
  | .step i _ =>
      inferInstanceAs (Decidable
        (∀ t ∈ s.tasks[i]?, t.sealed ≠ none → s.batcher.batchTx.Accepts))
  | .add _ => isTrue trivial
  | .forceFlush => isTrue trivial
  | .age => isTrue trivial
  | .recv => isTrue trivial

/-- The call that draws a number took its changes before all others that have no
number yet, the call that sends drew its number before all others that have not
sent theirs, and the numbers do not wrap. -/
def InTurn (s : Interleaved) : Turn → Prop
  | .step i _ => ∀ t ∈ s.tasks[i]?,
      (t.taken ≠ none → ∀ u ∈ s.tasks.take i, u.taken = none) ∧
      (t.sealed ≠ none → ∀ u ∈ s.tasks.take i, u.sealed = none) ∧
      (t.draws s.batcher = true → s.batcher.sequence.toNat + 1 < 2 ^ 64)
  | _ => True

instance (s : Interleaved) : ∀ turn, Decidable (InTurn s turn)
  | .step i _ =>
      inferInstanceAs (Decidable (∀ t ∈ s.tasks[i]?,
        (t.taken ≠ none → ∀ u ∈ s.tasks.take i, u.taken = none) ∧
        (t.sealed ≠ none → ∀ u ∈ s.tasks.take i, u.sealed = none) ∧
        (t.draws s.batcher = true → s.batcher.sequence.toNat + 1 < 2 ^ 64)))
  | .add _ => isTrue trivial
  | .forceFlush => isTrue trivial
  | .age => isTrue trivial
  | .recv => isTrue trivial

/-! ## The invariant -/

/-- The batches that have a number, in the order of their numbers. -/
def Interleaved.numbered (s : Interleaved) : List ChangeBatch :=
  s.received ++ s.batcher.batchTx.queue ++ s.tasks.filterMap Task.sealed

/-- The changes that have no number yet, in the order in which they were pushed. -/
def Interleaved.unnumbered (s : Interleaved) : List Change :=
  (s.tasks.filterMap Task.taken).flatten ++ s.batcher.pending

/-- The numbers of the first batches. -/
def firstNumbers (n : Nat) : List UInt64 :=
  (List.range' 1 n).map UInt64.ofNat

/-- Numbered batches are in order, they and what is not numbered yet are what was
pushed, and with batching disabled there is nothing that is not numbered. -/
structure InStep (s : Interleaved) : Prop where
  numbers : s.numbered.map ChangeBatch.sequence = firstNumbers s.batcher.sequence.toNat
  contents : changesOf s.numbered ++ s.unnumbered = s.pushed
  disabled : s.batcher.config.enabled = false →
    s.unnumbered = [] ∧ ∀ c, Task.push c ∉ s.tasks

theorem firstNumbers_succ (n : Nat) :
    firstNumbers (n + 1) = firstNumbers n ++ [UInt64.ofNat (n + 1)] := by
  rw [firstNumbers, List.range'_1_concat, List.map_append, Nat.add_comm 1 n]
  rfl

theorem inStep_start (b : ChangeBatcher) (hpending : b.pending = [])
    (hqueue : b.batchTx.queue = []) (hsequence : b.sequence = 0) :
    InStep (Interleaved.start b) where
  numbers := by simp [Interleaved.numbered, Interleaved.start, hqueue, hsequence, firstNumbers]
  contents := by
    simp [Interleaved.numbered, Interleaved.unnumbered, Interleaved.start, hqueue, hpending,
      changesOf_nil]
  disabled := by simp [Interleaved.unnumbered, Interleaved.start, hpending]

section Steps

variable {s : Interleaved}

/-- A step that moves no batch and no change. -/
theorem InStep.of_same (h : InStep s) {s' : Interleaved} (hnumbered : s'.numbered = s.numbered)
    (hunnumbered : s'.unnumbered = s.unnumbered) (hpushed : s'.pushed = s.pushed)
    (hsequence : s'.batcher.sequence = s.batcher.sequence)
    (hconfig : s'.batcher.config = s.batcher.config)
    (htasks : s.batcher.config.enabled = false → ∀ c, Task.push c ∉ s'.tasks) : InStep s' where
  numbers := by rw [hnumbered, hsequence, h.numbers]
  contents := by rw [hnumbered, hunnumbered, hpushed, h.contents]
  disabled := by
    rw [hconfig, hunnumbered]
    exact fun hdisabled => ⟨(h.disabled hdisabled).1, htasks hdisabled⟩

/-- A call begins. -/
theorem InStep.begin (h : InStep s) {t : Task} (htaken : t.taken = none)
    (hsealed : t.sealed = none) (hpush : ∀ c, t ≠ .push c) : InStep (s.begin t) := by
  apply h.of_same
  · simp [Interleaved.numbered, Interleaved.begin, hsealed]
  · simp [Interleaved.unnumbered, Interleaved.begin, htaken]
  · rfl
  · rfl
  · rfl
  · intro hdisabled c hmem
    rcases List.mem_append.mp hmem with hold | hnew
    · exact (h.disabled hdisabled).2 c hold
    · exact hpush c (List.mem_singleton.mp hnew).symm

/-- A batch is received. -/
theorem InStep.recv (h : InStep s) : InStep (s.next .recv) := by
  unfold Interleaved.next Channel.recv
  cases hqueue : s.batcher.batchTx.queue with
  | nil => exact h
  | cons batch rest =>
      apply h.of_same
      · simp [Interleaved.numbered, hqueue]
      · rfl
      · rfl
      · rfl
      · rfl
      · exact fun hdisabled => (h.disabled hdisabled).2

/-- A batch gets the next number. -/
theorem InStep.of_drawn (h : InStep s) {s' : Interleaved} (batch : ChangeBatch)
    (new : List Change) (hnumbered : s'.numbered = s.numbered ++ [batch])
    (hunnumbered : batch.changes ++ s'.unnumbered = s.unnumbered ++ new)
    (hpushed : s'.pushed = s.pushed ++ new) (hbatch : batch.sequence = s.batcher.sequence + 1)
    (hsequence : s'.batcher.sequence = s.batcher.sequence + 1)
    (hlt : s.batcher.sequence.toNat + 1 < 2 ^ 64)
    (hdisabled : s'.batcher.config.enabled = false →
      s'.unnumbered = [] ∧ ∀ c, Task.push c ∉ s'.tasks) : InStep s' where
  numbers := by
    have hnumber : s.batcher.sequence + 1 = UInt64.ofNat (s.batcher.sequence.toNat + 1) := by
      rw [← Checked.toNat_add_one hlt, UInt64.ofNat_toNat]
    rw [hnumbered, hsequence, Checked.toNat_add_one hlt, firstNumbers_succ, List.map_append,
      h.numbers, List.map_singleton, hbatch, hnumber]
  contents := by
    rw [hnumbered, hpushed, ← h.contents, changesOf_append, changesOf_cons, changesOf_nil,
      List.append_nil, List.append_assoc, hunnumbered, List.append_assoc]
  disabled := hdisabled

/-- No part but the first of an addition leads to a push. -/
theorem Task.rest_ne_push {b : ChangeBatcher} (hdisabled : b.config.enabled = false) (t : Task)
    (now : Instant) (c : Change) : (t.part b now).2 ≠ some (.push c) := by
  cases t with
  | add c' => simp [part_add_disabled hdisabled]
  | push c' => simp [part]
  | check => simp [part]
  | flush =>
      by_cases hpending : b.pending = []
      · simp [part_flush_nil hpending]
      · simp [part_flush_of_ne hpending]
  | draw changes => simp [part]
  | send batch => simp [part]
  | age => simp [part]

/-- With batching disabled no step leads to a push. -/
theorem InStep.push_notMem (h : InStep s) (hdisabled : s.batcher.config.enabled = false)
    (i : Nat) (t : Task) (now : Instant) (c : Change) :
    Task.push c ∉ Turns.advance s.tasks i (t.part s.batcher now).2 := by
  intro hmem
  rcases Turns.mem_advance hmem with hold | hrest
  · exact (h.disabled hdisabled).2 c hold
  · exact Task.rest_ne_push hdisabled t now c hrest

/-- A step that moves no batch and no change. -/
theorem InStep.step_same (h : InStep s) {i : Nat} {t : Task} {now : Instant}
    (ht : s.tasks[i]? = some t) (htaken : t.taken = none) (hsealed : t.sealed = none)
    (hpushes : t.pushes s.batcher = [])
    (hrest : (t.part s.batcher now).2.bind Task.taken = none ∧
      (t.part s.batcher now).2.bind Task.sealed = none)
    (hbatcher : (t.part s.batcher now).1.pending = s.batcher.pending ∧
      (t.part s.batcher now).1.batchTx = s.batcher.batchTx ∧
      (t.part s.batcher now).1.sequence = s.batcher.sequence ∧
      (t.part s.batcher now).1.config = s.batcher.config) : InStep (s.step i t now) := by
  rcases hbatcher with ⟨hpending, hchannel, hsequence, hconfig⟩
  apply h.of_same
  · simp only [Interleaved.numbered, Interleaved.step, hchannel,
      Turns.filterMap_advance Task.sealed ht hsealed, hrest.2, Option.toList_none, List.append_nil]
  · simp only [Interleaved.unnumbered, Interleaved.step, hpending,
      Turns.filterMap_advance Task.taken ht htaken, hrest.1, Option.toList_none, List.append_nil]
  · rw [Interleaved.step, hpushes, List.append_nil]
  · exact hsequence
  · exact hconfig
  · exact fun hdisabled => h.push_notMem hdisabled i t now

/-- An addition with batching disabled draws a number for its change. -/
theorem InStep.step_add_disabled (h : InStep s) {i : Nat} {c : Change} {now : Instant}
    (ht : s.tasks[i]? = some (.add c)) (hdisabled : s.batcher.config.enabled = false)
    (hlt : s.batcher.sequence.toNat + 1 < 2 ^ 64) : InStep (s.step i (.add c) now) := by
  have hpart := Task.part_add_disabled hdisabled c now
  rw [ChangeBatcher.checked_eq] at hpart
  have hunnumbered : (s.step i (.add c) now).unnumbered = s.unnumbered := by
    simp [Interleaved.unnumbered, Interleaved.step, hpart,
      Turns.filterMap_advance Task.taken ht rfl, Task.taken]
  have hnone := (h.disabled hdisabled).1
  refine h.of_drawn (ChangeBatch.new [c] (s.batcher.sequence + 1) now) [c]
    ?_ ?_ ?_ rfl ?_ hlt ?_
  · simp [Interleaved.numbered, Interleaved.step, hpart,
      Turns.filterMap_advance Task.sealed ht rfl, Task.sealed]
  · rw [hunnumbered, hnone]
    rfl
  · simp [Interleaved.step, Task.pushes, hdisabled]
  · simp [Interleaved.step, hpart]
  · exact fun _ => ⟨hunnumbered.trans hnone, h.push_notMem hdisabled i (.add c) now⟩

/-- A change is pushed. -/
theorem InStep.step_push (h : InStep s) {i : Nat} {c : Change} {now : Instant}
    (ht : s.tasks[i]? = some (.push c)) : InStep (s.step i (.push c) now) where
  numbers := by
    have hnumbered : (s.step i (.push c) now).numbered = s.numbered := by
      simp [Interleaved.numbered, Interleaved.step, Task.part, ChangeBatcher.push,
        Turns.filterMap_advance Task.sealed ht rfl, Task.sealed]
    rw [hnumbered]
    exact h.numbers
  contents := by
    simp only [Interleaved.numbered, Interleaved.unnumbered, Interleaved.step, Task.part,
      ChangeBatcher.push, Task.pushes, Turns.filterMap_advance Task.sealed ht rfl,
      Turns.filterMap_advance Task.taken ht rfl, ← h.contents]
    simp [Task.sealed, Task.taken]
  disabled := fun hdisabled =>
    absurd (List.mem_of_getElem? ht) ((h.disabled hdisabled).2 c)

/-- The pending changes are taken. -/
theorem InStep.step_flush (h : InStep s) {i : Nat} {now : Instant}
    (ht : s.tasks[i]? = some .flush) : InStep (s.step i .flush now) := by
  by_cases hpending : s.batcher.pending = []
  · have hpart := Task.part_flush_nil hpending now
    apply h.step_same ht rfl rfl rfl
    · simp [hpart]
    · simp [hpart]
  · have hpart := Task.part_flush_of_ne hpending now
    apply h.of_same
    · simp [Interleaved.numbered, Interleaved.step, hpart,
        Turns.filterMap_advance Task.sealed ht rfl, Task.sealed]
    · simp [Interleaved.unnumbered, Interleaved.step, hpart,
        Turns.filterMap_advance Task.taken ht rfl, Task.taken]
    · simp [Interleaved.step, Task.pushes]
    · simp [Interleaved.step, hpart]
    · simp [Interleaved.step, hpart]
    · exact fun hdisabled => h.push_notMem hdisabled i .flush now

/-- The flush that took its changes first draws a number for them. -/
theorem InStep.step_draw (h : InStep s) {i : Nat} {changes : List Change} {now : Instant}
    (ht : s.tasks[i]? = some (.draw changes))
    (hfirst : ∀ u ∈ s.tasks.take i, u.taken = none)
    (hlt : s.batcher.sequence.toNat + 1 < 2 ^ 64) : InStep (s.step i (.draw changes) now) := by
  have htaken := Turns.filterMap_advance_first Task.taken
    (some (Task.send (ChangeBatch.new changes (s.batcher.sequence + 1) now))) ht rfl hfirst rfl
  have hunnumbered : changes ++ (s.step i (.draw changes) now).unnumbered = s.unnumbered := by
    rw [Interleaved.unnumbered, Interleaved.unnumbered, ← htaken, List.flatten_cons,
      List.append_assoc]
    rfl
  refine h.of_drawn (ChangeBatch.new changes (s.batcher.sequence + 1) now) []
    ?_ ?_ ?_ rfl rfl hlt ?_
  · simp [Interleaved.numbered, Interleaved.step, Task.part, ChangeBatcher.drawSequence,
      Turns.filterMap_advance Task.sealed ht rfl, Task.sealed]
  · rw [List.append_nil]
    exact hunnumbered
  · simp [Interleaved.step, Task.pushes]
  · intro hdisabled
    have hnone := (h.disabled hdisabled).1
    rw [← hunnumbered, List.append_eq_nil_iff] at hnone
    exact ⟨hnone.2, h.push_notMem hdisabled i (.draw changes) now⟩

/-- The call that drew its number first sends its batch. -/
theorem InStep.step_send (h : InStep s) {i : Nat} {batch : ChangeBatch} {now : Instant}
    (ht : s.tasks[i]? = some (.send batch)) (haccepts : s.batcher.batchTx.Accepts)
    (hfirst : ∀ u ∈ s.tasks.take i, u.sealed = none) : InStep (s.step i (.send batch) now) := by
  have hsealed := Turns.filterMap_advance_first Task.sealed none ht rfl hfirst rfl
  have hsend := ChangeBatcher.send_accepted haccepts batch
  apply h.of_same
  · simp only [Interleaved.numbered, Interleaved.step, Task.part, hsend, ← hsealed,
      List.append_assoc, List.singleton_append]
  · simp only [Interleaved.unnumbered, Interleaved.step, Task.part, hsend,
      Turns.filterMap_advance Task.taken ht rfl]
    simp
  · simp [Interleaved.step, Task.pushes]
  · simp [Interleaved.step, Task.part, hsend]
  · simp [Interleaved.step, Task.part, hsend]
  · exact fun hdisabled => h.push_notMem hdisabled i (.send batch) now

/-- Every step that meets the condition keeps the invariant. -/
theorem InStep.next (h : InStep s) {turn : Turn} (hroomy : Roomy s turn)
    (hturn : InTurn s turn) : InStep (s.next turn) := by
  cases turn with
  | add c => exact h.begin rfl rfl (by simp)
  | forceFlush => exact h.begin rfl rfl (by simp)
  | age => exact h.begin rfl rfl (by simp)
  | recv => exact h.recv
  | step i now =>
      rw [Interleaved.next]
      cases ht : s.tasks[i]? with
      | none => exact h
      | some t =>
          rcases hturn t ht with ⟨htaken, hsealed, hdraws⟩
          cases t with
          | add c =>
              cases henabled : s.batcher.config.enabled with
              | false =>
                  exact h.step_add_disabled ht henabled (hdraws (by simp [Task.draws, henabled]))
              | true =>
                  have hpart := Task.part_add_enabled henabled c now
                  rw [ChangeBatcher.checked_eq] at hpart
                  apply h.step_same ht rfl rfl
                  · simp [Task.pushes, henabled]
                  · simp [hpart, Task.taken, Task.sealed]
                  · simp [hpart, ChangeBatcher.markStart]
          | push c => exact h.step_push ht
          | check =>
              apply h.step_same ht rfl rfl rfl
              · cases hfull : s.batcher.shouldFlushSize <;>
                  simp [Task.part, hfull, Task.taken, Task.sealed]
              · simp [Task.part]
          | flush => exact h.step_flush ht
          | draw changes => exact h.step_draw ht (htaken (by simp [Task.taken])) (hdraws rfl)
          | send batch =>
              have hreached : (Task.send batch).sealed ≠ none := Option.some_ne_none batch
              exact h.step_send ht (hroomy _ ht hreached) (hsealed hreached)
          | age =>
              apply h.step_same ht rfl rfl rfl
              · cases hage : s.batcher.ageCheck now <;>
                  simp [Task.part, hage, Task.taken, Task.sealed]
              · simp [Task.part]

end Steps

/-! ## What the invariant gives -/

theorem firstNumbers_pairwise {n : Nat} (hlt : n < 2 ^ 64) :
    (firstNumbers n).Pairwise (· < ·) := by
  have hrange : (List.range' 1 n).Pairwise (· < ·) := List.pairwise_lt_range'
  rw [firstNumbers, List.pairwise_map]
  refine hrange.imp_of_mem fun hi hj hij => ?_
  have hi' := List.mem_range'_1.mp hi
  have hj' := List.mem_range'_1.mp hj
  rw [UInt64.lt_iff_toNat_lt, UInt64.toNat_ofNat', UInt64.toNat_ofNat',
    Nat.mod_eq_of_lt (by omega), Nat.mod_eq_of_lt (by omega)]
  exact hij

/-- Batches in increasing order are sorted. -/
theorem inSequence_eq {batches : List ChangeBatch}
    (hincreasing : (batches.map ChangeBatch.sequence).Pairwise (· < ·)) :
    inSequence batches = batches := by
  rw [List.pairwise_map] at hincreasing
  exact List.mergeSort_of_pairwise
    (hincreasing.imp fun hlt => decide_eq_true (UInt64.le_of_lt hlt))

/-- In whatever order they are looked at. -/
theorem ReceivedInOrder.isPrefix {s : Interleaved} (h : ReceivedInOrder s) :
    changesOf s.received <+: s.pushed := by
  rw [← inSequence_eq h.increasing]
  exact h.contents

theorem InStep.receivedInOrder {s : Interleaved} (h : InStep s) : ReceivedInOrder s := by
  have hincreasing : (s.received.map ChangeBatch.sequence).Pairwise (· < ·) := by
    have hall := firstNumbers_pairwise s.batcher.sequence.toNat_lt
    rw [← h.numbers, Interleaved.numbered, List.append_assoc, List.map_append] at hall
    exact (List.pairwise_append.mp hall).1
  refine ⟨hincreasing, ?_, fun htasks hpending hqueue => ?_⟩
  · rw [inSequence_eq hincreasing, ← h.contents, Interleaved.numbered, List.append_assoc,
      changesOf_append, List.append_assoc]
    exact List.prefix_append _ _
  · rw [inSequence_eq hincreasing, ← h.contents, Interleaved.numbered, Interleaved.unnumbered,
      htasks, hpending, hqueue]
    simp

/-- In every interleaving of a new batcher over a channel that is never full, whose
steps all meet the condition, batches are received in the order of their numbers,
and together they hold what was pushed, in that order. -/
theorem batches_in_order (config : BatchConfig) (capacity : Nat) (turns : List Turn)
    (hroomy : interleaved.Along Roomy
      (Interleaved.start (ChangeBatcher.new config (Channel.new capacity))) turns)
    (hturn : interleaved.Along InTurn
      (Interleaved.start (ChangeBatcher.new config (Channel.new capacity))) turns) :
    interleaved.Along (fun s turn => ReceivedInOrder (s.next turn))
      (Interleaved.start (ChangeBatcher.new config (Channel.new capacity))) turns := by
  refine (hroomy.both hturn).of_invariant (I := InStep)
    (fun s turn h hstep => h.next hstep.1 hstep.2)
    (fun s turn h hstep => (h.next hstep.1 hstep.2).receivedInOrder) ?_
  exact inStep_start _ rfl rfl rfl

/-- Two calls add a change each to a batcher with batches of one change.  Both have taken
their changes before the first draws its number, and both have drawn their numbers
before the first sends. -/
theorem batches_in_order_sample :
    interleaved.Along (fun s turn => ReceivedInOrder (s.next turn))
      (Interleaved.start (ChangeBatcher.new ⟨1, 100, true⟩ (Channel.new 2)))
      [.add sampleChange, .add otherChange, .step 0 0, .step 1 0, .step 0 0, .step 0 0,
        .step 0 0, .step 1 0, .step 1 0, .step 1 0, .step 0 0, .step 1 0, .step 0 0,
        .step 0 0, .recv, .recv] :=
  batches_in_order ⟨1, 100, true⟩ 2
    [.add sampleChange, .add otherChange, .step 0 0, .step 1 0, .step 0 0, .step 0 0,
      .step 0 0, .step 1 0, .step 1 0, .step 1 0, .step 0 0, .step 1 0, .step 0 0,
      .step 0 0, .recv, .recv]
    (by decide) (by decide)

/-- Two flushes take one change each.  If the later one draws its number first, the
changes are in the wrong order; if it only sends first, the numbers are. -/
theorem not_receivedInOrder_overtaken :
    ¬ interleaved.Along (fun s turn => ReceivedInOrder (s.next turn))
        (Interleaved.start (ChangeBatcher.new ⟨10, 100, true⟩ (Channel.new 10)))
        [.add sampleChange, .step 0 0, .step 0 0, .step 0 0, .forceFlush, .step 0 0,
          .add otherChange, .step 1 0, .step 1 0, .step 1 0, .forceFlush, .step 1 0,
          .step 1 0, .step 1 0, .recv] ∧
    ¬ interleaved.Along (fun s turn => ReceivedInOrder (s.next turn))
        (Interleaved.start (ChangeBatcher.new ⟨10, 100, true⟩ (Channel.new 10)))
        [.add sampleChange, .step 0 0, .step 0 0, .step 0 0, .forceFlush, .step 0 0, .step 0 0,
          .add otherChange, .step 1 0, .step 1 0, .step 1 0, .forceFlush, .step 1 0, .step 1 0,
          .step 1 0, .recv, .step 0 0, .recv] := by
  constructor
  · intro hinOrder
    exact absurd (hinOrder.mono fun _ _ h => h.isPrefix) (by decide)
  · intro hinOrder
    exact absurd (hinOrder.mono fun _ _ h => h.increasing) (by decide)

end Batch

end IrohSync
