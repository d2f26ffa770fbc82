import IrohSync.Batch.Interleaving

/-!
# The age of waiting changes

The background task looks at changes only if the batch start is set.  An addition
sets it before it pushes its change, in two separate steps; a flush that comes
between them resets it, and if it found another change to take, the pushed change
waits without a batch start.

Main results:

- Theorem {lit}`Task.timed_part`: what every part of a call keeps.
- Theorem {lit}`along_timed_iff`: in which interleavings the batch start is set
  whenever changes are pending.
- Theorem {lit}`waiting_timed`: after such an interleaving the background task will
  flush what is pending.
-/

namespace IrohSync

namespace Batch

open Machine

/-- While changes are pending, the batch start is set. -/
def ChangeBatcher.Timed (b : ChangeBatcher) : Prop :=
  b.pending ≠ [] → b.batchStart ≠ none

/-- When no call is in progress, pending changes have a batch start, and the
background task flushes them as soon as they are old enough. -/
def WaitingTimed (s : Interleaved) : Prop :=
  s.tasks = [] → s.batcher.pending ≠ [] →
    ∃ start, s.batcher.batchStart = some start ∧
      ∀ now, start + s.batcher.config.maxBatchAge ≤ now → s.batcher.ageCheck now = true

/-- The change that a call is about to push. -/
def Task.unpushed : Task → Option Change
  | .push change => some change
  | _ => none

/-- An addition that comes to push its change finds the batch start set: no flush
has reset it since an addition marked it last. -/
def Marked (s : Interleaved) : Turn → Prop
  | .step i _ => ∀ t ∈ s.tasks[i]?, t.unpushed ≠ none → s.batcher.batchStart ≠ none
  | _ => True

instance (s : Interleaved) : ∀ turn, Decidable (Marked s turn)
  | .step i _ =>
      inferInstanceAs (Decidable
        (∀ t ∈ s.tasks[i]?, t.unpushed ≠ none → s.batcher.batchStart ≠ none))
  | .add _ => isTrue trivial
  | .forceFlush => isTrue trivial
  | .age => isTrue trivial
  | .recv => isTrue trivial

/-! ## One part of a call -/

/-- A part that pushes leaves the batch start set only if it was set before; all
other parts keep what is said about pending changes. -/
theorem Task.timed_part {b : ChangeBatcher} (h : b.Timed) (t : Task) (now : Instant) :
    (t.part b now).1.Timed ↔ (t.unpushed ≠ none → b.batchStart ≠ none) := by
  have hother : t.unpushed = none → (t.part b now).1.Timed →
      ((t.part b now).1.Timed ↔ (t.unpushed ≠ none → b.batchStart ≠ none)) :=
    fun hnone htimed => ⟨fun _ hpush => absurd hnone hpush, fun _ => htimed⟩
  cases t with
  | add c =>
      apply hother rfl
      cases henabled : b.config.enabled with
      | false =>
          rw [part_add_disabled henabled, ChangeBatcher.checked_eq]
          exact h
      | true =>
          rw [part_add_enabled henabled, ChangeBatcher.checked_eq]
          intro _
          cases b.batchStart <;> simp [ChangeBatcher.markStart]
  | push c =>
      refine ⟨fun htimed _ => ?_, fun hmarked _ => hmarked (by simp [unpushed])⟩
      exact htimed (by simp [part, ChangeBatcher.push])
  | check => exact hother rfl h
  | flush =>
      apply hother rfl
      by_cases hpending : b.pending = []
      · rw [part_flush_nil hpending]
        exact h
      · rw [part_flush_of_ne hpending]
        exact fun hne => absurd rfl hne
  | draw changes => exact hother rfl h
  | send batch =>
      apply hother rfl
      rw [part, ChangeBatcher.send_eq]
      exact h
  | age => exact hother rfl h

/-- A step keeps what is said about pending changes exactly if it meets the
condition. -/
theorem timed_next_iff {s : Interleaved} (h : s.batcher.Timed) (turn : Turn) :
    (s.next turn).batcher.Timed ↔ Marked s turn := by
  cases turn with
  | add c => exact ⟨fun _ => trivial, fun _ => h⟩
  | forceFlush => exact ⟨fun _ => trivial, fun _ => h⟩
  | age => exact ⟨fun _ => trivial, fun _ => h⟩
  | step i now =>
      rw [Interleaved.next, Marked]
      cases ht : s.tasks[i]? with
      | none => exact ⟨fun _ t hmem => absurd hmem (Option.not_mem_none t), fun _ => h⟩
      | some t =>
          simp only [Option.mem_some_iff, forall_eq']
          exact Task.timed_part h t now
  | recv =>
      refine ⟨fun _ => trivial, fun _ => ?_⟩
      rw [Interleaved.next]
      cases s.batcher.batchTx.recv with
      | none => exact h
      | some received => exact h

/-! ## Interleavings -/

/-- The interleavings in which pending changes always have a batch start. -/
theorem along_timed_iff {s : Interleaved} (h : s.batcher.Timed) (turns : List Turn) :
    interleaved.Along (fun s turn => (s.next turn).batcher.Timed) s turns ↔
      interleaved.Along Marked s turns :=
  along_iff (I := fun s : Interleaved => s.batcher.Timed) (fun _ _ _ htimed => htimed)
    (fun _ turn h => timed_next_iff h turn) h turns

/-- A batch start that is old enough makes the background task flush. -/
theorem ChangeBatcher.Timed.waitingTimed {s : Interleaved} (h : s.batcher.Timed) :
    WaitingTimed s := by
  intro _ hpending
  rcases Option.ne_none_iff_exists'.mp (h hpending) with ⟨start, hstart⟩
  refine ⟨start, hstart, fun now hnow => ?_⟩
  have hage : s.batcher.config.maxBatchAge ≤ now - start := Nat.le_sub_of_add_le' hnow
  have hcount : 0 < s.batcher.pendingCount := List.length_pos_of_ne_nil hpending
  simp [ageCheck, hstart, hage, hcount]

/-- In every interleaving in which additions push only while the batch start is set,
whatever is pending when no call is in progress will be flushed by its age. -/
theorem waiting_timed (config : BatchConfig) (batchTx : Channel ChangeBatch)
    (turns : List Turn)
    (hmarked : interleaved.Along Marked
      (Interleaved.start (ChangeBatcher.new config batchTx)) turns) :
    interleaved.Along (fun s turn => WaitingTimed (s.next turn))
      (Interleaved.start (ChangeBatcher.new config batchTx)) turns := by
  have hstart : (Interleaved.start (ChangeBatcher.new config batchTx)).batcher.Timed :=
    fun hpending => absurd rfl hpending
  exact ((along_timed_iff hstart turns).mpr hmarked).mono fun _ _ h => h.waitingTimed

/-- One addition, with nothing in between. -/
theorem waiting_timed_sample :
    interleaved.Along (fun s turn => WaitingTimed (s.next turn))
      (Interleaved.start (ChangeBatcher.new .default (Channel.new 10)))
      [.add sampleChange, .step 0 0, .step 0 1, .step 0 2] :=
  waiting_timed .default (Channel.new 10) [.add sampleChange, .step 0 0, .step 0 1, .step 0 2]
    (by decide)

/-- A flush takes a waiting change while another addition has marked the batch start
and not pushed yet: the pushed change waits without a batch start. -/
theorem not_waitingTimed_flushed :
    ¬ interleaved.Along (fun s turn => WaitingTimed (s.next turn))
      (Interleaved.start (ChangeBatcher.new .default (Channel.new 10)))
      [.add sampleChange, .step 0 0, .step 0 1, .step 0 2, .add otherChange, .step 0 3,
        .forceFlush, .step 1 4, .step 1 5, .step 1 6, .step 0 7, .step 0 8] := by
  intro htimed
  have hsome := htimed.mono (Q := fun s turn => (s.next turn).tasks = [] →
      (s.next turn).batcher.pending ≠ [] → (s.next turn).batcher.batchStart ≠ none) fun s turn h
      htasks hpending => by
    rcases h htasks hpending with ⟨start, hstart, _⟩
    rw [hstart]
    exact Option.some_ne_none start
  exact absurd hsome (by decide)

end Batch

end IrohSync
