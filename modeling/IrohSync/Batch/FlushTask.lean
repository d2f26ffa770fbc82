import Mathlib.Data.List.Basic
import IrohSync.Lib.Watch
import IrohSync.Batch.Conservation

/-!
# The background flush task

Any number of callers start and shut down the background flush task of one batcher.  A start
looks whether there is a handle, creates a channel and stores its sender, spawns the task
with the receiver, and stores the handle, in four steps between which other callers come.
A shutdown sends on the stored channel, takes the handle and waits for the task; its future
may be dropped while it waits.  A task may also panic.

A channel and the task that is spawned with its receiver are one slot here.  The work of a tick
is one step, as is every call by others: a tick that holds one lock of the batcher and waits for
another one for good is left out, and so is what it would keep from ending.

Main results:

- Theorem {lit}`Supervised.Wired.next`: a sender is alive only while it is stored.
- Theorem {lit}`flush_tasks_end`: whatever the interleaving, all tasks but one were told to
  end, and after a shutdown all were.
- Theorem {lit}`supervised_batching`: the batches are those of a batcher with age ticks.
-/

namespace IrohSync

namespace Batch

open Machine

/-! ## The model -/

/-- Where a task is: not spawned yet, in its loop, behind its loop, or ended. -/
inductive TaskPhase where
  | unspawned
  | running
  | leaving
  | ended
  | crashed
deriving DecidableEq, Repr

/-- A shutdown channel and the task with its receiver. -/
structure Slot where
  watch : Watch
  phase : TaskPhase
deriving DecidableEq, Repr

/-- Where a caller is in a start or a shutdown. -/
inductive FlushCaller where
  | idle
  | checked
  | stored (slot : Nat)
  | spawned (slot : Nat)
  | signalled
  | awaiting (slot : Nat)
deriving DecidableEq, Repr

/-- A batcher with its slots, which of them the stored sender and the handle belong to, and
its callers. -/
structure Supervised (κ : Type) where
  batching : Batching
  slots : List Slot
  shutdownTx : Option Nat
  handle : Option Nat
  callers : κ → FlushCaller

/-- What others do with the batcher and its channel. -/
inductive OuterEvent where
  | add (change : Change) (now : Instant)
  | forceFlush (now : Instant)
  | recv
  | close
  | dropReceiver

/-- As an event of the batcher. -/
def OuterEvent.toBatch : OuterEvent → BatchEvent
  | .add change now => .call (.add change now)
  | .forceFlush now => .call (.forceFlush now)
  | .recv => .recv
  | .close => .close
  | .dropReceiver => .dropReceiver

/-- A step of a caller, of a task, or of somebody else. -/
inductive SuperEvent (κ : Type) where
  | start (k : κ)
  | shutdown (k : κ)
  | advance (k : κ)
  | cancel (k : κ)
  | tick (i : Nat) (now : Instant)
  | leave (i : Nat)
  | clear (i : Nat)
  | crash (i : Nat)
  | outer (event : OuterEvent)

namespace Supervised

variable {κ : Type}

/-- Before the first start. -/
def start (b : ChangeBatcher) : Supervised κ where
  batching := Batching.start b
  slots := []
  shutdownTx := none
  handle := none
  callers := fun _ => .idle

/-- The phase of a task. -/
def phaseAt (s : Supervised κ) (i : Nat) : Option TaskPhase :=
  s.slots[i]?.map Slot.phase

/-- The task was told to end: a value was sent to it, or its sender is gone. -/
def toldAt (s : Supervised κ) (i : Nat) : Option Bool :=
  s.slots[i]?.map fun slot => slot.watch.changed 0

/-- A task moves on. -/
def setPhase (s : Supervised κ) (i : Nat) (phase : TaskPhase) : Supervised κ :=
  { s with slots := s.slots.modify i fun slot => { slot with phase := phase } }

/-- The handle is stored, taken or cleared. -/
def setHandle (s : Supervised κ) (handle : Option Nat) : Supervised κ :=
  { s with
    handle := handle
    batching :=
      { s.batching with
        batcher := { s.batching.batcher with taskRunning := handle.isSome } } }

/-- A crash was noticed. -/
def setCrashed (s : Supervised κ) : Supervised κ :=
  { s with
    batching :=
      { s.batching with batcher := { s.batching.batcher with taskHasCrashed := true } } }

/-- Send on the stored channel, if there is one. -/
def signal (s : Supervised κ) : Supervised κ :=
  match s.shutdownTx with
  | none => s
  | some i =>
      { s with slots := s.slots.modify i fun slot => { slot with watch := slot.watch.send } }

/-- Create a channel and store its sender; the sender stored before is dropped. -/
def store (s : Supervised κ) : Supervised κ :=
  { s with
    slots :=
      (match s.shutdownTx with
        | none => s.slots
        | some i =>
            s.slots.modify i fun slot => { slot with watch := slot.watch.dropSender }) ++
        [⟨Watch.new, .unspawned⟩]
    shutdownTx := some s.slots.length }

variable [DecidableEq κ]

/-- A caller moves on. -/
def setCaller (s : Supervised κ) (k : κ) (caller : FlushCaller) : Supervised κ :=
  { s with callers := Function.update s.callers k caller }

/-- A caller goes on with its start or shutdown. -/
def advance (s : Supervised κ) (k : κ) : Supervised κ :=
  match s.callers k with
  | .idle => s
  | .checked => s.store.setCaller k (.stored s.slots.length)
  | .stored i => (s.setPhase i .running).setCaller k (.spawned i)
  | .spawned i => (s.setHandle (some i)).setCaller k .idle
  | .signalled =>
      match s.handle with
      | none => s.setCaller k .idle
      | some i => (s.setHandle none).setCaller k (.awaiting i)
  | .awaiting i =>
      if s.phaseAt i = some .ended then s.setCaller k .idle
      else if s.phaseAt i = some .crashed then s.setCrashed.setCaller k .idle
      else s

/-- The future of a shutdown is dropped. -/
def cancel (s : Supervised κ) (k : κ) : Supervised κ :=
  match s.callers k with
  | .signalled => s.setCaller k .idle
  | .awaiting _ => s.setCaller k .idle
  | .idle => s
  | .checked => s
  | .stored _ => s
  | .spawned _ => s

/-- The state after a step. -/
def next (s : Supervised κ) : SuperEvent κ → Supervised κ
  | .start k =>
      if s.callers k = .idle ∧ s.handle = none then s.setCaller k .checked else s
  | .shutdown k =>
      if s.callers k = .idle then s.signal.setCaller k .signalled else s
  | .advance k => s.advance k
  | .cancel k => s.cancel k
  | .tick i now =>
      if s.phaseAt i = some .running then
        { s with batching := s.batching.next (.call (.ageTick now)) }
      else s
  | .leave i =>
      if s.phaseAt i = some .running ∧ s.toldAt i = some true then s.setPhase i .leaving else s
  | .clear i =>
      if s.phaseAt i = some .leaving then (s.setPhase i .ended).setHandle none else s
  | .crash i => if s.phaseAt i = some .running then s.setPhase i .crashed else s
  | .outer event => { s with batching := s.batching.next event.toBatch }

/-- What a step does with the batcher. -/
def answer (s : Supervised κ) : SuperEvent κ → List BatchEvent
  | .tick i now => if s.phaseAt i = some .running then [.call (.ageTick now)] else []
  | .outer event => [event.toBatch]
  | .start _ => []
  | .shutdown _ => []
  | .advance _ => []
  | .cancel _ => []
  | .leave _ => []
  | .clear _ => []
  | .crash _ => []

end Supervised

/-- Batchers with background tasks. -/
def supervised {κ : Type} [DecidableEq κ] :
    Machine (Supervised κ) (SuperEvent κ) (List BatchEvent) where
  next := Supervised.next
  answer := Supervised.answer

/-! ## What a step does to the slots -/

namespace Supervised

section Slots

variable {κ : Type} {s s' : Supervised κ}

/-- All slots are still there, with channels in some later state. -/
def Later (s s' : Supervised κ) : Prop :=
  ∀ (i : Nat) (slot : Slot), s.slots[i]? = some slot →
    ∃ slot', s'.slots[i]? = some slot' ∧ slot.watch.Later slot'.watch

/-- A sender is alive only while it is stored. -/
def Wired (s : Supervised κ) : Prop :=
  ∀ (i : Nat) (slot : Slot), s.slots[i]? = some slot → slot.watch.senderAlive = true →
    s.shutdownTx = some i

theorem wired_start (b : ChangeBatcher) : (start b : Supervised κ).Wired := by
  intro i slot hslot
  simp [start] at hslot

theorem later_refl (s : Supervised κ) : s.Later s :=
  fun _ slot hslot => ⟨slot, hslot, slot.watch.later_refl⟩

theorem Later.trans {s'' : Supervised κ} (h : s.Later s') (h' : s'.Later s'') : s.Later s'' := by
  intro i slot hslot
  rcases h i slot hslot with ⟨slot', hslot', hlater⟩
  rcases h' i slot' hslot' with ⟨slot'', hslot'', hlater'⟩
  exact ⟨slot'', hslot'', hlater.trans hlater'⟩

/-- A task that was told to end has still been told later. -/
theorem Later.told (h : s.Later s') {i : Nat} (htold : s.toldAt i = some true) :
    s'.toldAt i = some true := by
  rw [toldAt, Option.map_eq_some_iff] at htold
  rcases htold with ⟨slot, hslot, hchanged⟩
  rcases h i slot hslot with ⟨slot', hslot', hlater⟩
  rw [toldAt, hslot', Option.map_some, hlater.changed hchanged]

/-- One channel is in a later state. -/
theorem later_modify {i : Nat} {f : Slot → Slot}
    (hf : ∀ slot : Slot, slot.watch.Later (f slot).watch)
    (hslots : s'.slots = s.slots.modify i f) : s.Later s' := by
  intro j slot hslot
  rw [hslots, List.getElem?_modify, hslot]
  by_cases hij : i = j
  · exact ⟨f slot, by simp [hij], hf slot⟩
  · exact ⟨slot, by simp [hij], slot.watch.later_refl⟩

/-- Slots that come from slots before, with channels in some later state. -/
theorem Wired.modify (h : s.Wired) {i : Nat} {f : Slot → Slot}
    (hf : ∀ slot : Slot, slot.watch.Later (f slot).watch) (hslots : s'.slots = s.slots.modify i f)
    (htx : s'.shutdownTx = s.shutdownTx) : s'.Wired := by
  intro j slot' hslot' halive
  rw [hslots, List.getElem?_modify] at hslot'
  rw [htx]
  cases hslot : s.slots[j]? with
  | none => simp [hslot] at hslot'
  | some slot =>
      refine h j slot hslot ?_
      by_cases hij : i = j
      · obtain rfl : f slot = slot' := by simpa [hslot, hij] using hslot'
        exact (hf slot).senderAlive halive
      · obtain rfl : slot = slot' := by simpa [hslot, hij] using hslot'
        exact halive

/-- The slots after the sender of another channel is stored. -/
theorem store_slots (s : Supervised κ) : ∃ before, s.store.slots = before ++ [⟨.new, .unspawned⟩] ∧
    before.length = s.slots.length ∧
    (∀ (i : Nat) (slot : Slot), s.slots[i]? = some slot → ∃ slot', before[i]? = some slot' ∧
      slot'.phase = slot.phase ∧ slot.watch.Later slot'.watch ∧
      (s.shutdownTx = some i → slot'.watch.senderAlive = false)) := by
  rw [store]
  cases htx : s.shutdownTx with
  | none =>
      exact ⟨s.slots, rfl, rfl, fun i slot hslot =>
        ⟨slot, hslot, rfl, slot.watch.later_refl, fun h => (nomatch h)⟩⟩
  | some c =>
      refine ⟨_, rfl, List.length_modify _ _ _, fun i slot hslot => ?_⟩
      rw [List.getElem?_modify, hslot]
      by_cases hc : c = i
      · exact ⟨{ slot with watch := slot.watch.dropSender }, by simp [hc], rfl,
          slot.watch.later_dropSender, fun _ => rfl⟩
      · exact ⟨slot, by simp [hc], rfl, slot.watch.later_refl,
          fun h => absurd (Option.some.inj h) hc⟩

theorem later_store (hslots : s'.slots = s.store.slots) : s.Later s' := by
  rcases store_slots s with ⟨before, hstore, hlength, hbefore⟩
  intro i slot hslot
  rcases hbefore i slot hslot with ⟨slot', hslot', _, hlater, _⟩
  rw [hslots, hstore, List.getElem?_append_left (List.getElem?_eq_some_iff.mp hslot').1]
  exact ⟨slot', hslot', hlater⟩

theorem Wired.store (h : s.Wired) (hslots : s'.slots = s.store.slots)
    (htx : s'.shutdownTx = s.store.shutdownTx) : s'.Wired := by
  rcases store_slots s with ⟨before, hstore, hlength, hbefore⟩
  intro i slot' hslot' halive
  rw [hslots, hstore] at hslot'
  rw [htx, Supervised.store]
  by_cases hi : i < before.length
  · -- a sender that was alive before was the stored one, which is dropped
    rw [List.getElem?_append_left hi] at hslot'
    have hslot := List.getElem?_eq_getElem (hlength ▸ hi)
    rcases hbefore i _ hslot with ⟨slot, hsame, _, hlater, hdropped⟩
    obtain rfl := Option.some.inj (hsame.symm.trans hslot')
    have hdead := hdropped (h i _ hslot (hlater.senderAlive halive))
    exact absurd halive (by simp [hdead])
  · have hlt := (List.getElem?_eq_some_iff.mp hslot').1
    rw [List.length_append, List.length_singleton] at hlt
    rw [show i = s.slots.length by omega]

/-- What a step does to the slots and the stored sender. -/
inductive SlotStep (s s' : Supervised κ) : Prop
  | same (hslots : s'.slots = s.slots) (htx : s'.shutdownTx = s.shutdownTx)
  | phase (i : Nat) (phase : TaskPhase)
      (hslots : s'.slots = s.slots.modify i fun slot => { slot with phase := phase })
      (htx : s'.shutdownTx = s.shutdownTx)
  | signal (i : Nat)
      (hslots : s'.slots = s.slots.modify i fun slot => { slot with watch := slot.watch.send })
      (htx : s'.shutdownTx = s.shutdownTx)
  | store (hslots : s'.slots = s.store.slots) (htx : s'.shutdownTx = s.store.shutdownTx)

theorem SlotStep.later (h : SlotStep s s') : s.Later s' := by
  cases h with
  | same hslots htx => exact fun i slot hslot => ⟨slot, hslots ▸ hslot, slot.watch.later_refl⟩
  | phase i phase hslots htx =>
      exact later_modify (f := fun slot => { slot with phase := phase })
        (fun slot => slot.watch.later_refl) hslots
  | signal i hslots htx =>
      exact later_modify (f := fun slot => { slot with watch := slot.watch.send })
        (fun slot => slot.watch.later_send) hslots
  | store hslots htx => exact later_store hslots

theorem SlotStep.wired (hstep : SlotStep s s') (h : s.Wired) : s'.Wired := by
  cases hstep with
  | same hslots htx =>
      intro i slot hslot
      rw [htx]
      exact h i slot (hslots ▸ hslot)
  | phase i phase hslots htx =>
      exact h.modify (f := fun slot => { slot with phase := phase })
        (fun slot => slot.watch.later_refl) hslots htx
  | signal i hslots htx =>
      exact h.modify (f := fun slot => { slot with watch := slot.watch.send })
        (fun slot => slot.watch.later_send) hslots htx
  | store hslots htx => exact h.store hslots htx

variable [DecidableEq κ]

theorem advance_slotStep (s : Supervised κ) (k : κ) : SlotStep s (s.advance k) := by
  unfold advance
  split
  · exact .same rfl rfl
  · exact .store rfl rfl
  · next i _ => exact .phase i .running rfl rfl
  · exact .same rfl rfl
  · split
    · exact .same rfl rfl
    · exact .same rfl rfl
  · split
    · exact .same rfl rfl
    · split
      · exact .same rfl rfl
      · exact .same rfl rfl

theorem next_slotStep (s : Supervised κ) (event : SuperEvent κ) : SlotStep s (s.next event) := by
  cases event with
  | start k =>
      rw [next]
      split
      · exact .same rfl rfl
      · exact .same rfl rfl
  | shutdown k =>
      rw [next]
      split
      · rw [signal]
        split
        · exact .same rfl rfl
        · next c _ => exact .signal c rfl rfl
      · exact .same rfl rfl
  | advance k => exact s.advance_slotStep k
  | cancel k =>
      rw [next, cancel]
      split <;> exact .same rfl rfl
  | tick i now =>
      rw [next]
      split
      · exact .same rfl rfl
      · exact .same rfl rfl
  | leave i =>
      rw [next]
      split
      · exact .phase i .leaving rfl rfl
      · exact .same rfl rfl
  | clear i =>
      rw [next]
      split
      · exact .phase i .ended rfl rfl
      · exact .same rfl rfl
  | crash i =>
      rw [next]
      split
      · exact .phase i .crashed rfl rfl
      · exact .same rfl rfl
  | outer event => exact .same rfl rfl

theorem Wired.next (h : s.Wired) (event : SuperEvent κ) : (s.next event).Wired :=
  (s.next_slotStep event).wired h

theorem Wired.run (h : s.Wired) (events : List (SuperEvent κ)) :
    (supervised.run s events).Wired :=
  run_invariant (fun _ event h _ => h.next event) h (along_trivial s events)

theorem later_run (s : Supervised κ) (events : List (SuperEvent κ)) :
    s.Later (supervised.run s events) := by
  induction events generalizing s with
  | nil => exact later_refl s
  | cons event events ih => exact (s.next_slotStep event).later.trans (ih (s.next event))

end Slots

end Supervised

/-! ## Any callers -/

section AnyCallers

variable {κ : Type} [DecidableEq κ]

/-- What holds of the tasks in one state and, from there on, in every later one.  A running task
is at its select, since its ticks are one step. -/
structure TasksEnd (s : Supervised κ) (later : List (SuperEvent κ)) : Prop where
  one : ∀ i j, s.toldAt i = some false → s.toldAt j = some false → i = j
  stays : ∀ i, s.toldAt i = some true → (supervised.run s later).toldAt i = some true
  shutdown : ∀ k i, s.callers k = .idle → i < s.slots.length →
    (supervised.run s (.shutdown k :: later)).toldAt i = some true
  ends : ∀ i, s.phaseAt i = some .running → s.toldAt i = some true →
    (supervised.run s [.leave i, .clear i]).phaseAt i = some .ended

namespace Supervised

variable {s : Supervised κ}

omit [DecidableEq κ] in
theorem toldAt_eq_false_iff {i : Nat} : s.toldAt i = some false ↔
    ∃ slot, s.slots[i]? = some slot ∧ slot.watch.version ≤ 0 ∧ slot.watch.senderAlive = true := by
  simp only [toldAt, Option.map_eq_some_iff, Watch.changed_eq_false_iff]

omit [DecidableEq κ] in
theorem phaseAt_setPhase (s : Supervised κ) {i : Nat} {slot : Slot}
    (hslot : s.slots[i]? = some slot) (phase : TaskPhase) :
    (s.setPhase i phase).phaseAt i = some phase := by
  simp [phaseAt, setPhase, hslot]

omit [DecidableEq κ] in
/-- A task with the stored sender is told to end by a signal, all others were told before. -/
theorem Wired.signal_told (h : s.Wired) {i : Nat} (hi : i < s.slots.length) :
    s.signal.toldAt i = some true := by
  have hslot := List.getElem?_eq_getElem hi
  have halive := h i _ hslot
  cases htx : s.shutdownTx with
  | none =>
      rw [htx] at halive
      have hdead : s.slots[i].watch.senderAlive = false := by
        by_contra hne
        exact absurd (halive (Bool.eq_true_of_not_eq_false hne)) (Option.some_ne_none i).symm
      simp [signal, htx, toldAt, hslot, Watch.changed, hdead]
  | some c =>
      by_cases hc : c = i
      · have hchanged := Watch.changed_send (Nat.zero_le s.slots[i].watch.version)
        simp [signal, htx, toldAt, hslot, hc, hchanged]
      · have hdead : s.slots[i].watch.senderAlive = false := by
          by_contra hne
          have hstored := halive (Bool.eq_true_of_not_eq_false hne)
          exact hc (Option.some.inj (htx.symm.trans hstored))
        simp [signal, htx, toldAt, hslot, hc, Watch.changed, hdead]

omit [DecidableEq κ] in
theorem phaseAt_signal (s : Supervised κ) (i : Nat) : s.signal.phaseAt i = s.phaseAt i := by
  rw [signal]
  split
  · rfl
  · next c _ =>
      rw [phaseAt, phaseAt, List.getElem?_modify]
      cases s.slots[i]? with
      | none => rfl
      | some slot => by_cases hc : c = i <;> simp [hc]

/-- A task that was told to end ends in two steps. -/
theorem phaseAt_ends {i : Nat} (hphase : s.phaseAt i = some .running)
    (htold : s.toldAt i = some true) :
    (supervised.run s [.leave i, .clear i]).phaseAt i = some .ended := by
  rcases Option.map_eq_some_iff.mp hphase with ⟨slot, hslot, hrunning⟩
  have hleave : s.next (.leave i) = s.setPhase i .leaving := if_pos ⟨hphase, htold⟩
  have hleaving := s.phaseAt_setPhase hslot .leaving
  rcases Option.map_eq_some_iff.mp hleaving with ⟨slot', hslot', _⟩
  have hclear : (s.setPhase i .leaving).next (.clear i) =
      ((s.setPhase i .leaving).setPhase i .ended).setHandle none := if_pos hleaving
  have hrun : supervised.run s [.leave i, .clear i] = (s.next (.leave i)).next (.clear i) := rfl
  rw [hrun, hleave, hclear]
  exact phaseAt_setPhase _ hslot' .ended

end Supervised

/-- However starts, shutdowns, dropped futures, panics and ticks are interleaved: all tasks
but at most one have been told to end, and what was told to end remains so; after the signal
of a shutdown all tasks there are have been told, and each of them can end at once. -/
theorem flush_tasks_end (b : ChangeBatcher) (before later : List (SuperEvent κ)) :
    TasksEnd (supervised.run (.start b) before) later := by
  have hwired := (Supervised.wired_start (κ := κ) b).run before
  generalize supervised.run (.start b) before = s at hwired
  refine ⟨fun i j hi hj => ?_, fun i => (s.later_run later).told, fun k i hidle hi => ?_,
    fun i => Supervised.phaseAt_ends⟩
  · rcases Supervised.toldAt_eq_false_iff.mp hi with ⟨slot, hslot, _, halive⟩
    rcases Supervised.toldAt_eq_false_iff.mp hj with ⟨slot', hslot', _, halive'⟩
    exact Option.some.inj ((hwired i slot hslot halive).symm.trans (hwired j slot' hslot' halive'))
  · have hshutdown : s.next (.shutdown k) = s.signal.setCaller k .signalled := if_pos hidle
    have hlater := (s.signal.setCaller k .signalled).later_run later
    rw [show supervised.run s (.shutdown k :: later) =
      supervised.run (s.next (.shutdown k)) later from rfl, hshutdown]
    exact hlater.told (hwired.signal_told hi)

end AnyCallers

/-! ## The batcher -/

section Batcher

variable {b : ChangeBatcher}

/-- A batcher with other flags of its task. -/
def ChangeBatcher.withTask (b : ChangeBatcher) (taskRunning taskHasCrashed : Bool) :
    ChangeBatcher :=
  { b with
    taskRunning := taskRunning
    taskHasCrashed := taskHasCrashed }

/-- A batcher that does not know of a task. -/
def ChangeBatcher.bare (b : ChangeBatcher) : ChangeBatcher :=
  b.withTask false false

/-- A send does not look at the flags. -/
theorem ChangeBatcher.send_withTask (b : ChangeBatcher) (batch : ChangeBatch)
    (taskRunning taskHasCrashed : Bool) :
    (b.withTask taskRunning taskHasCrashed).send batch =
      ((b.send batch).1.withTask taskRunning taskHasCrashed, (b.send batch).2) := by
  by_cases haccepts : b.batchTx.Accepts
  · have hother := send_accepted (b := b.withTask taskRunning taskHasCrashed) haccepts batch
    rw [hother, send_accepted haccepts]
    rfl
  · have hother := send_refused (b := b.withTask taskRunning taskHasCrashed) haccepts batch
    rw [hother, send_refused haccepts]

/-- A flush does not look at the flags. -/
theorem ChangeBatcher.flush_withTask (b : ChangeBatcher) (now : Instant)
    (taskRunning taskHasCrashed : Bool) :
    (b.withTask taskRunning taskHasCrashed).flush now =
      ((b.flush now).1.withTask taskRunning taskHasCrashed, (b.flush now).2) := by
  by_cases hpending : b.pending = []
  · have hother := flush_nil (b := b.withTask taskRunning taskHasCrashed) hpending now
    rw [hother, flush_nil hpending]
  · have hother := flush_of_ne (b := b.withTask taskRunning taskHasCrashed) hpending now
    rw [hother, flush_of_ne hpending]
    exact b.sealed.send_withTask _ _ _

theorem ChangeBatcher.send_taskRunning (b : ChangeBatcher) (batch : ChangeBatch) :
    (b.send batch).1.taskRunning = b.taskRunning := by
  have hsend := b.send_withTask batch b.taskRunning b.taskHasCrashed
  exact congrArg (fun outcome => outcome.1.taskRunning) hsend

theorem ChangeBatcher.flush_taskRunning (b : ChangeBatcher) (now : Instant) :
    (b.flush now).1.taskRunning = b.taskRunning := by
  have hflush := b.flush_withTask now b.taskRunning b.taskHasCrashed
  exact congrArg (fun outcome => outcome.1.taskRunning) hflush

theorem ChangeBatcher.checkFlush_bare (b : ChangeBatcher) (now : Instant) :
    (b.bare.checkFlush now).1 = (b.checkFlush now).1.bare := by
  have hsize : b.bare.shouldFlushSize = b.shouldFlushSize := rfl
  rw [checkFlush, checkFlush, hsize]
  split
  · rw [bare, flush_withTask]
    rfl
  · rfl

theorem ChangeBatcher.pushed_bare (b : ChangeBatcher) (c : Change) (now : Instant) :
    b.bare.pushed c now = (b.pushed c now).bare := by
  rw [pushed, pushed, checked_eq b]
  rfl

/-- No operation looks at more of the flags than it changes. -/
theorem BatchCall.run_bare (b : ChangeBatcher) (call : BatchCall) :
    (call.run b.bare).1 = (call.run b).1.bare := by
  cases call with
  | add c now =>
      rw [run, run]
      cases henabled : b.config.enabled with
      | true =>
          rw [ChangeBatcher.add_enabled henabled, ChangeBatcher.add_enabled (b := b.bare) henabled,
            ChangeBatcher.pushed_bare, ChangeBatcher.checkFlush_bare]
      | false =>
          have hnumbered : ({ b.bare.checked with sequence := b.bare.sequence + 1 } :
              ChangeBatcher) = ({ b.checked with sequence := b.sequence + 1 } :
                ChangeBatcher).bare := by
            rw [ChangeBatcher.checked_eq b]
            rfl
          rw [ChangeBatcher.add_disabled henabled,
            ChangeBatcher.add_disabled (b := b.bare) henabled, hnumbered, ChangeBatcher.bare,
            ChangeBatcher.send_withTask]
          rfl
  | forceFlush now =>
      rw [run, run, ChangeBatcher.forceFlush, ChangeBatcher.bare, ChangeBatcher.flush_withTask]
      rfl
  | ageTick now =>
      have hage : b.bare.ageCheck now = b.ageCheck now := rfl
      rw [run, run, ChangeBatcher.ageTick, ChangeBatcher.ageTick, hage]
      dsimp only
      split
      · rw [ChangeBatcher.bare, ChangeBatcher.flush_withTask]
        rfl
      · rfl

/-- No operation touches the handle. -/
theorem BatchCall.run_taskRunning (b : ChangeBatcher) (call : BatchCall) :
    (call.run b).1.taskRunning = b.taskRunning := by
  cases call with
  | add c now =>
      rw [run]
      cases henabled : b.config.enabled with
      | true =>
          have hpushed : (b.pushed c now).taskRunning = b.taskRunning := by
            rw [ChangeBatcher.pushed, ChangeBatcher.checked_eq]
            rfl
          rw [ChangeBatcher.add_enabled henabled, ChangeBatcher.checkFlush]
          split
          · rw [ChangeBatcher.flush_taskRunning, hpushed]
          · exact hpushed
      | false =>
          rw [ChangeBatcher.add_disabled henabled, ChangeBatcher.checked_eq]
          exact ChangeBatcher.send_taskRunning _ _
  | forceFlush now => exact b.flush_taskRunning now
  | ageTick now =>
      rw [run, ChangeBatcher.ageTick]
      dsimp only
      split
      · exact b.flush_taskRunning now
      · rfl

/-- The state of a batcher that does not know of a task. -/
def Batching.bare (s : Batching) : Batching :=
  { s with batcher := s.batcher.bare }

theorem Batching.next_bare (s : Batching) (e : BatchEvent) :
    s.bare.next e = (s.next e).bare := by
  cases e with
  | call call =>
      have hrun := call.run_bare s.batcher
      simp only [next, bare, hrun]
  | recv =>
      have hrecv : s.bare.batcher.batchTx.recv = s.batcher.batchTx.recv := rfl
      rw [next, next, hrecv]
      cases s.batcher.batchTx.recv with
      | none => rfl
      | some received => rfl
  | close => rfl
  | dropReceiver => rfl

theorem Batching.next_taskRunning (s : Batching) (e : BatchEvent) :
    (s.next e).batcher.taskRunning = s.batcher.taskRunning := by
  cases e with
  | call call => exact call.run_taskRunning s.batcher
  | recv =>
      rw [next]
      cases s.batcher.batchTx.recv with
      | none => rfl
      | some received => rfl
  | close => rfl
  | dropReceiver => rfl

end Batcher

section Refinement

variable {κ : Type} [DecidableEq κ]

namespace Supervised

/-- The flag of the batcher shows whether there is a handle. -/
def HandleShown (s : Supervised κ) : Prop :=
  s.batching.batcher.taskRunning = s.handle.isSome

theorem HandleShown.next {s : Supervised κ} (h : s.HandleShown) (event : SuperEvent κ) :
    (s.next event).HandleShown := by
  have hbatching : ∀ e, ({ s with batching := s.batching.next e } : Supervised κ).HandleShown :=
    fun e => (s.batching.next_taskRunning e).trans h
  cases event with
  | start k =>
      rw [Supervised.next]
      split <;> exact h
  | shutdown k =>
      rw [Supervised.next, signal]
      split
      · split <;> exact h
      · exact h
  | advance k =>
      rw [Supervised.next, advance]
      split
      · exact h
      · exact h
      · exact h
      · rfl
      · split
        · exact h
        · rfl
      · split
        · exact h
        · split <;> exact h
  | cancel k =>
      rw [Supervised.next, cancel]
      split <;> exact h
  | tick i now =>
      rw [Supervised.next]
      split
      · exact hbatching _
      · exact h
  | leave i =>
      rw [Supervised.next]
      split <;> exact h
  | clear i =>
      rw [Supervised.next]
      split
      · rfl
      · exact h
  | crash i =>
      rw [Supervised.next]
      split <;> exact h
  | outer event => exact hbatching _

end Supervised

/-- Up to its flags, a step does with the batcher what its answer says. -/
theorem bare_next (s : Supervised κ) (event : SuperEvent κ) :
    (s.next event).batching.bare = batching.run s.batching.bare (s.answer event) := by
  have hone : ∀ e, (s.batching.next e).bare = batching.run s.batching.bare [e] := fun e =>
    (s.batching.next_bare e).symm
  cases event with
  | start k =>
      rw [Supervised.next]
      split <;> rfl
  | shutdown k =>
      rw [Supervised.next, Supervised.signal]
      split
      · split <;> rfl
      · rfl
  | advance k =>
      rw [Supervised.next, Supervised.advance]
      split
      · rfl
      · rfl
      · rfl
      · rfl
      · split <;> rfl
      · split
        · rfl
        · split <;> rfl
  | cancel k =>
      rw [Supervised.next, Supervised.cancel]
      split <;> rfl
  | tick i now =>
      rw [Supervised.next, Supervised.answer]
      split
      · exact hone _
      · rfl
  | leave i =>
      rw [Supervised.next]
      split <;> rfl
  | clear i =>
      rw [Supervised.next]
      split <;> rfl
  | crash i =>
      rw [Supervised.next]
      split <;> rfl
  | outer event => exact hone _

/-- The batcher with its tasks is, up to their flags, a batcher that is ticked: what holds of
the batches in every run of the batcher holds whatever its callers do with the tasks. -/
theorem supervised_batching (s : Supervised κ) (events : List (SuperEvent κ)) :
    (supervised.run s events).batching.bare =
      batching.run s.batching.bare (supervised.answers s events).flatten := by
  induction events generalizing s with
  | nil => rfl
  | cons event events ih =>
      rw [answers_cons, List.flatten_cons, run_append]
      exact (ih (s.next event)).trans (congrArg (fun t => batching.run t _) (bare_next s event))

end Refinement

end Batch

end IrohSync
