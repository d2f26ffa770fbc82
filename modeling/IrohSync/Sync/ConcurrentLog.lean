import Mathlib.Algebra.Order.Ring.Nat
import IrohSync.Lib.Machine
import IrohSync.Sync.RecordedLog

/-!
# The log under concurrent calls

Any number of threads record changes, read and take snapshots.  Recording takes
its offset in one atomic step and pushes the change in another one, and a
snapshot copies the log in one step and loads the offset in another one.  A read
holds the lock of the log while it loads the offset, so it is a single step.

All position arithmetic takes it for granted that the offset and the end of the
log agree.  They do as long as changes are pushed in the order of their offsets
and nobody looks while an offset is taken and its change is not pushed.

Main results:

- Theorem {lit}`Tidy.next`: what every step keeps that meets the condition.
- Theorem {lit}`concurrent_log_sound`: the order of the log, what reads return
  and what snapshots hold, in every interleaving of such steps.
-/

namespace IrohSync

open BoundedLog Machine

/-! ## Interleavings -/

/-- The shared log, the changes whose offsets were taken and that are not pushed
yet, in the order of the offsets, and the copies of unfinished snapshots. -/
structure ConcurrentLog where
  log : RecordedLog
  numbered : List (UInt64 × Change)
  copies : List (List (UInt64 × Change))

/-- An atomic step of some thread.  The second step of a recording or a snapshot
names the unfinished call by its place. -/
inductive LogStep where
  | fetch (change : Change)
  | push (i : Nat)
  | read (offset : UInt64)
  | copy
  | load (i : Nat)

/-- What a step returns to its thread. -/
inductive LogAnswer where
  | none
  | recorded (offset : UInt64)
  | changes (entries : List (UInt64 × Change))
  | snapshot (offset : UInt64) (entries : List (UInt64 × Change))

/-- The state before the first call. -/
def ConcurrentLog.new (maxChanges : UInt64) : ConcurrentLog where
  log := RecordedLog.new maxChanges
  numbered := []
  copies := []

/-- The state after a step. -/
def ConcurrentLog.next (s : ConcurrentLog) : LogStep → ConcurrentLog
  | .fetch c =>
      { s with log := s.log.fetch.1, numbered := s.numbered ++ [(s.log.fetch.2, c)] }
  | .push i =>
      match s.numbered[i]? with
      | some entry => { s with log := s.log.push entry, numbered := s.numbered.eraseIdx i }
      | none => s
  | .read _ => s
  | .copy => { s with copies := s.copies ++ [s.log.entries] }
  | .load i => { s with copies := s.copies.eraseIdx i }

/-- What a step returns. -/
def ConcurrentLog.answer (s : ConcurrentLog) : LogStep → LogAnswer
  | .fetch _ => .none
  | .push i => ((s.numbered[i]?).map fun entry => LogAnswer.recorded entry.1).getD .none
  | .read offset => .changes (s.log.since offset)
  | .copy => .none
  | .load i => ((s.copies[i]?).map (LogAnswer.snapshot s.log.offset)).getD .none

/-- The interleavings of any number of threads. -/
def concurrentLog : Machine ConcurrentLog LogStep LogAnswer where
  next := ConcurrentLog.next
  answer := ConcurrentLog.answer

/-! ## What is expected of them -/

/-- A log is ordered by the offsets that were returned for its changes. -/
def Ordered (l : RecordedLog) : Prop :=
  (l.entries.map Prod.fst).Pairwise (· < ·)

/-- Changes are those just below an offset. -/
def JustBelow (offset : UInt64) (entries : List (UInt64 × Change)) : Prop :=
  entries.length ≤ offset.toNat ∧
    entries.map (fun e => e.1.toNat) =
      List.range' (offset.toNat - entries.length) entries.length

/-- A read returns the retained changes at or above its offset and no others. -/
def ReadsExactly (l : RecordedLog) (offset : UInt64) (entries : List (UInt64 × Change)) :
    Prop :=
  ∀ e, e ∈ entries ↔ e ∈ l.entries ∧ offset ≤ e.1

/-- A step leaves an ordered log and returns what it should. -/
def SoundStep (s : ConcurrentLog) (step : LogStep) : Prop :=
  Ordered (s.next step).log ∧
    match s.answer step, step with
    | .changes entries, .read offset => ReadsExactly s.log offset entries
    | .snapshot offset entries, _ => entries = s.log.entries ∧ JustBelow offset entries
    | _, _ => True

/-- Changes are pushed in the order of their offsets, the offset does not wrap
and does not move during a snapshot, and nobody looks at the log while a change
is not pushed yet, unless the read is about retained changes or none. -/
def Settled (s : ConcurrentLog) : LogStep → Prop
  | .fetch _ => s.copies = [] ∧ s.log.offset.toNat + 1 < 2 ^ 64
  | .push i => i = 0
  | .read offset =>
      s.numbered = [] ∨ s.log.offset ≤ offset ∨ ∀ e ∈ s.log.entries, offset ≤ e.1
  | .copy => s.numbered = []
  | .load _ => True

/-! ## The invariant -/

/-- The log holds the last of the first `n` changes, the ones that are not pushed
follow, and unfinished snapshots copied the log as it is. -/
structure Tidy (s : ConcurrentLog) (n : Nat) : Prop where
  log : Numbered s.log n
  numbered : s.numbered.map Prod.fst =
    (List.range' n s.numbered.length).map UInt64.ofNat
  offset : s.log.offset.toNat = n + s.numbered.length
  copies : ∀ entries ∈ s.copies, s.numbered = [] ∧ entries = s.log.entries

theorem tidy_new (maxChanges : UInt64) : Tidy (ConcurrentLog.new maxChanges) 0 where
  log := numbered_new maxChanges
  numbered := rfl
  offset := rfl
  copies := by simp [ConcurrentLog.new]

/-- Taking an offset. -/
theorem Tidy.fetch {s : ConcurrentLog} {n : Nat} (h : Tidy s n) (c : Change)
    (hsettled : Settled s (.fetch c)) : Tidy (s.next (.fetch c)) n where
  log := ⟨h.log.length_le, h.log.offsets⟩
  numbered := by
    have hoffset : s.log.offset = UInt64.ofNat (n + s.numbered.length) := by
      rw [← h.offset, UInt64.ofNat_toNat]
    simp only [ConcurrentLog.next, RecordedLog.fetch, List.map_append, List.length_append,
      List.length_singleton, List.range'_1_concat, h.numbered, hoffset]
    rfl
  offset := by
    simp only [ConcurrentLog.next, RecordedLog.fetch, List.length_append,
      List.length_singleton, UInt64.toNat_add, UInt64.toNat_one, h.offset]
    have hroom := hsettled.2
    rw [h.offset] at hroom
    omega
  copies := by simp [ConcurrentLog.next, hsettled.1]

/-- Pushing the change with the least offset that is not pushed yet. -/
theorem Tidy.push {s : ConcurrentLog} {n : Nat} (h : Tidy s n) :
    ∃ n', Tidy (s.next (.push 0)) n' := by
  cases hnumbered : s.numbered with
  | nil => exact ⟨n, by simpa [ConcurrentLog.next, hnumbered] using h⟩
  | cons entry rest =>
      have hnext : s.next (.push 0) = { s with log := s.log.push entry, numbered := rest } := by
        simp [ConcurrentLog.next, hnumbered]
      have htags := h.numbered
      rw [hnumbered, List.map_cons, List.length_cons, List.range'_succ, List.map_cons,
        List.cons.injEq] at htags
      rcases htags with ⟨hfirst, hrest⟩
      refine ⟨n + 1, ?_⟩
      rw [hnext]
      refine ⟨?_, hrest, ?_, ?_⟩
      · have hpushed := h.log.push entry.2
        rwa [← hfirst] at hpushed
      · have hoffset := h.offset
        rw [hnumbered, List.length_cons] at hoffset
        simp only [RecordedLog.push]
        omega
      · -- no snapshot is unfinished while a change is not pushed
        intro entries hentries
        have hnil := (h.copies entries hentries).1
        rw [hnumbered] at hnil
        contradiction

/-- Every step that meets the condition keeps the invariant. -/
theorem Tidy.next {s : ConcurrentLog} {n : Nat} (h : Tidy s n) {step : LogStep}
    (hsettled : Settled s step) : ∃ n', Tidy (s.next step) n' := by
  cases step with
  | fetch c => exact ⟨n, h.fetch c hsettled⟩
  | push i =>
      obtain rfl : i = 0 := hsettled
      exact h.push
  | read offset => exact ⟨n, h⟩
  | copy =>
      refine ⟨n, h.log, h.numbered, h.offset, ?_⟩
      intro entries hentries
      rcases List.mem_append.mp hentries with hold | hnew
      · exact h.copies entries hold
      · exact ⟨hsettled, List.mem_singleton.mp hnew⟩
  | load i =>
      refine ⟨n, h.log, h.numbered, h.offset, ?_⟩
      intro entries hentries
      exact h.copies entries (List.mem_of_mem_eraseIdx hentries)

/-! ## What the invariant gives -/

/-- The offsets as numbers. -/
theorem Numbered.toNat_offsets {l : RecordedLog} {n : Nat} (h : Numbered l n)
    (hlt : n ≤ 2 ^ 64) :
    l.entries.map (fun e => e.1.toNat) =
      List.range' (n - l.entries.length) l.entries.length := by
  have hle := h.length_le
  have hmap : l.entries.map (fun e => e.1.toNat) =
      (l.entries.map Prod.fst).map UInt64.toNat := by
    rw [List.map_map]
    rfl
  rw [hmap, h.offsets, List.map_map]
  refine (List.map_congr_left fun i hi => ?_).trans (List.map_id _)
  have hi' := (List.mem_range'_1.mp hi).2
  rw [Function.comp_apply, UInt64.toNat_ofNat', id, Nat.mod_eq_of_lt (by omega)]

theorem Numbered.ordered {l : RecordedLog} {n : Nat} (h : Numbered l n) (hlt : n ≤ 2 ^ 64) :
    Ordered l := by
  have hpairwise : (l.entries.map fun e => e.1.toNat).Pairwise (· < ·) := by
    rw [h.toNat_offsets hlt]
    exact List.pairwise_lt_range'
  unfold Ordered
  rw [List.pairwise_map] at hpairwise ⊢
  exact hpairwise.imp UInt64.lt_iff_toNat_lt.mpr

theorem Tidy.le {s : ConcurrentLog} {n : Nat} (h : Tidy s n) : n ≤ 2 ^ 64 := by
  have hlt := s.log.offset.toNat_lt
  have hoffset := h.offset
  omega

/-- A read while everything is pushed, or about retained changes or none. -/
theorem Tidy.readsExactly {s : ConcurrentLog} {n : Nat} (h : Tidy s n) {offset : UInt64}
    (hsettled : Settled s (.read offset)) :
    ReadsExactly s.log offset (s.log.since offset) := by
  intro e
  have hoffsets := h.log.toNat_offsets h.le
  have hlength := h.log.length_le
  have hoffset := h.offset
  rw [since_eq, mem_latest_iff hoffsets, UInt64.le_iff_toNat_le]
  refine and_congr_right fun he => ?_
  have hbounds : ∀ e ∈ s.log.entries,
      n - s.log.entries.length ≤ e.1.toNat ∧ e.1.toNat < n := by
    intro e he
    have hmem := List.mem_map_of_mem (f := fun e => e.1.toNat) he
    rw [hoffsets] at hmem
    have hrange := List.mem_range'_1.mp hmem
    omega
  have hbound := hbounds e he
  rcases hsettled with hpushed | hahead | hretained
  · rw [hpushed, List.length_nil] at hoffset
    omega
  · have hle := UInt64.le_iff_toNat_le.mp hahead
    omega
  · -- the oldest retained change is not below the offset
    have hpos := List.length_pos_of_mem he
    have hfirst : n - s.log.entries.length ∈ s.log.entries.map fun e => e.1.toNat := by
      rw [hoffsets]
      exact List.mem_range'_1.mpr (by omega)
    rcases List.mem_map.mp hfirst with ⟨oldest, holdest, hnumber⟩
    have hle := UInt64.le_iff_toNat_le.mp (hretained oldest holdest)
    omega

/-- Every step that meets the condition is sound. -/
theorem Tidy.soundStep {s : ConcurrentLog} {n : Nat} (h : Tidy s n) {step : LogStep}
    (hsettled : Settled s step) : SoundStep s step := by
  rcases h.next hsettled with ⟨n', hnext⟩
  refine ⟨hnext.log.ordered hnext.le, ?_⟩
  cases step with
  | fetch c => trivial
  | push i =>
      simp only [ConcurrentLog.answer]
      cases s.numbered[i]? <;> trivial
  | read offset => exact h.readsExactly hsettled
  | copy => trivial
  | load i =>
      simp only [ConcurrentLog.answer]
      cases hcopy : s.copies[i]? with
      | none => trivial
      | some entries =>
          rcases h.copies entries (List.mem_of_getElem? hcopy) with ⟨hpushed, rfl⟩
          have hoffset := h.offset
          rw [hpushed, List.length_nil, Nat.add_zero] at hoffset
          refine ⟨rfl, ?_, ?_⟩
          · rw [hoffset]
            exact h.log.length_le
          · rw [hoffset]
            exact h.log.toNat_offsets h.le

/-- In every interleaving whose steps all meet the condition the log stays
ordered by the offsets that recording returned, reads return the retained
changes at or above their offset and no others, and snapshots hold the retained
changes just below their offset. -/
theorem concurrent_log_sound (maxChanges : UInt64) (steps : List LogStep)
    (hsettled : concurrentLog.Along Settled (ConcurrentLog.new maxChanges) steps) :
    concurrentLog.Along SoundStep (ConcurrentLog.new maxChanges) steps := by
  apply Along.of_invariant (I := fun s => ∃ n, Tidy s n) (P := Settled)
  · rintro s step ⟨n, h⟩ hstep
    exact h.next hstep
  · rintro s step ⟨n, h⟩ hstep
    exact h.soundStep hstep
  · exact ⟨0, tidy_new maxChanges⟩
  · exact hsettled

/-- Two recordings, of which the second takes its offset before the first has pushed,
reads in between, and two snapshots that overlap. -/
theorem concurrent_log_sound_sample :
    concurrentLog.Along SoundStep (ConcurrentLog.new 10)
      [.fetch sampleChange, .fetch otherChange, .read 2, .push 0, .read 0, .push 0, .copy,
        .copy, .read 1, .load 1, .load 0] :=
  concurrent_log_sound 10
    [.fetch sampleChange, .fetch otherChange, .read 2, .push 0, .read 0, .push 0, .copy,
      .copy, .read 1, .load 1, .load 0]
    ⟨⟨rfl, by decide⟩, ⟨rfl, by decide⟩, Or.inr (Or.inl (by decide)), rfl,
      Or.inr (Or.inr (by decide)), rfl, rfl, rfl, Or.inl rfl, trivial, trivial, trivial⟩

/-- Two recordings that push in the other order leave an unordered log; a read
between the two steps of a recording returns a change below its offset; and a
snapshot during which a change is recorded misses it. -/
theorem not_soundStep_interleaved :
    ¬ concurrentLog.Along SoundStep (ConcurrentLog.new 10)
        [.fetch sampleChange, .fetch otherChange, .push 1, .push 0] ∧
    ¬ concurrentLog.Along SoundStep (ConcurrentLog.new 10)
        [.fetch sampleChange, .push 0, .fetch otherChange, .read 1] ∧
    ¬ concurrentLog.Along SoundStep (ConcurrentLog.new 10)
        [.fetch sampleChange, .push 0, .copy, .fetch otherChange, .push 0, .load 0] := by
  refine ⟨?_, ?_, ?_⟩
  · rintro ⟨_, _, _, ⟨hordered, _⟩, _⟩
    unfold Ordered at hordered
    exact absurd hordered (by decide)
  · rintro ⟨_, _, _, ⟨_, hread⟩, _⟩
    have hbelow := (hread (0, sampleChange)).mp (by decide)
    exact absurd hbelow.2 (by decide)
  · rintro ⟨_, _, _, _, _, ⟨_, hsnapshot⟩, _⟩
    exact absurd hsnapshot.2.2 (by decide)

end IrohSync
