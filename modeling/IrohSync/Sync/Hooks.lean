import IrohSync.Lib.Listeners
import IrohSync.Lib.Machine
import IrohSync.Sync.Runner

/-!
# Registered hooks

Hooks are registered with a runner at any time, while changes are recorded and the
forwarding task is at work.  The task takes one change at a time from the channel, hands
it to the replicator and then, under the lock of the hooks, to all hooks registered so far.
Changes are also recorded in the replicator without the runner.

Main results:

- Theorem {lit}`HookFeed.forward_eq`: the two parts of a turn of the task are one turn of
  the runner.
- Theorem {lit}`HookFeed.next_spec`: what a step does.
- Theorem {lit}`hooks_fed`: what each hook is given in any run, and what is lost.
-/

namespace IrohSync

open FileIo Listeners Machine

/-! ## Recording and registering -/

/-- Register a storage hook. -/
def ReplicatorRunner.registerHook (r : ReplicatorRunner) : ReplicatorRunner :=
  { r with hooks := join r.hooks }

/-- Integration context for connecting replication to a database. -/
structure SyncContext where
  replicator : Replicator

/-- Record a database change for replication. -/
def SyncContext.recordDbChange (context : SyncContext) (id : Uuid) (timestamp : UInt64)
    (ns db : String) (key : Bytes) (value : Option Bytes) : SyncContext :=
  let change :=
    match value with
    | some v => Change.set id timestamp ns db key v
    | none => Change.delete id timestamp ns db key
  { replicator := context.replicator.recordChange change }

/-- A runner and the change that its task has forwarded but not told the hooks yet. -/
structure HookFeed where
  runner : ReplicatorRunner
  hand : Option Change

/-- A new runner, whose task waits. -/
def HookFeed.new : HookFeed where
  runner := ReplicatorRunner.new
  hand := none

/-- The task takes a change and forwards it to the replicator. -/
def HookFeed.receive (s : HookFeed) : HookFeed :=
  match s.hand, s.runner.changeTx.recv with
  | none, some (change, changeTx) =>
      { runner :=
          { s.runner with
            replicator := s.runner.replicator.recordChange change
            changeTx := changeTx }
        hand := some change }
  | _, _ => s

/-- The task gives the change in its hand to all hooks. -/
def HookFeed.notify (s : HookFeed) : HookFeed :=
  match s.hand with
  | none => s
  | some change => { runner := { s.runner with hooks := tell s.runner.hooks change }, hand := none }

/-- Calls of any threads, and the two parts of a turn of the task. -/
inductive HookEvent where
  | record (change : Change)
  | registerHook
  | recordDbChange (id : Uuid) (timestamp : UInt64) (ns db : String) (key : Bytes)
      (value : Option Bytes)
  | receive
  | notify

/-- The feed after an event. -/
def HookFeed.next (s : HookFeed) : HookEvent → HookFeed
  | .record change => { s with runner := s.runner.recordChange change }
  | .registerHook => { s with runner := s.runner.registerHook }
  | .recordDbChange id timestamp ns db key value =>
      let context : SyncContext := ⟨s.runner.replicator⟩
      { s with
        runner :=
          { s.runner with
            replicator := (context.recordDbChange id timestamp ns db key value).replicator } }
  | .receive => s.receive
  | .notify => s.notify

/-- The changes that an event brings into the channel, and those that it tells the hooks. -/
structure HookAnswer where
  accepted : List Change
  told : List Change

/-- What an event brings and tells. -/
def HookFeed.answer (s : HookFeed) : HookEvent → HookAnswer
  | .record change => ⟨if s.runner.changeTx.Accepts then [change] else [], []⟩
  | .notify => ⟨[], s.hand.toList⟩
  | .registerHook => ⟨[], []⟩
  | .recordDbChange _ _ _ _ _ _ => ⟨[], []⟩
  | .receive => ⟨[], []⟩

/-- Runners with hooks. -/
def hookFeed : Machine HookFeed HookEvent HookAnswer where
  next := HookFeed.next
  answer := HookFeed.answer

/-- The changes that a run brings into the channel. -/
def acceptedIn (s : HookFeed) (events : List HookEvent) : List Change :=
  (hookFeed.answers s events).flatMap HookAnswer.accepted

/-- The changes that the hooks are told during a run. -/
def toldIn (s : HookFeed) (events : List HookEvent) : List Change :=
  (hookFeed.answers s events).flatMap HookAnswer.told

/-- The change that an event passes to the runner. -/
def HookEvent.recorded : HookEvent → List Change
  | .record change => [change]
  | .registerHook => []
  | .recordDbChange _ _ _ _ _ _ => []
  | .receive => []
  | .notify => []

/-- The changes of a feed that the hooks have not been told. -/
def HookFeed.untold (s : HookFeed) : List Change :=
  s.hand.toList ++ s.runner.changeTx.queue

/-! ## One step -/

/-- A turn of the task of the runner is its two parts. -/
theorem HookFeed.forward_eq {s : HookFeed} (hhand : s.hand = none) :
    s.receive.notify = { runner := s.runner.forward, hand := none } := by
  cases s with
  | mk runner hand =>
      obtain rfl : hand = none := hhand
      cases hrecv : runner.changeTx.recv with
      | none => simp [receive, notify, ReplicatorRunner.forward, hrecv]
      | some received => simp [receive, notify, ReplicatorRunner.forward, hrecv, Listeners.tell]

/-- A feed as a new one leaves it: the task holds its receiver, nobody that of the
replicator, and no more is queued than fits. -/
structure HookFeed.Fed (s : HookFeed) : Prop where
  alive : s.runner.changeTx.receiverAlive = true
  capacity : s.runner.changeTx.capacity = 1000
  queue : s.runner.changeTx.queue.length ≤ 1000
  replicator : s.runner.replicator = Replicator.new

theorem fed_new : HookFeed.new.Fed :=
  ⟨rfl, rfl, Nat.zero_le _, rfl⟩

/-- What the replicator is given is lost. -/
theorem replicator_recordChange (change : Change) :
    Replicator.new.recordChange change = Replicator.new :=
  Replicator.recordChange_dropped rfl change

/-- What a step does: the feed stays as a new one leaves it, what the step brings is behind
what the hooks were not told before, what it tells them is in front, and all hooks from
before hear that. -/
structure HookFeed.StepSpec (s : HookFeed) (event : HookEvent) : Prop where
  fed : (s.next event).Fed
  flow : (s.answer event).told ++ (s.next event).untold =
    s.untold ++ (s.answer event).accepted
  heard : Heard (s.answer event).told s.runner.hooks (s.next event).runner.hooks

theorem HookFeed.record_spec {s : HookFeed} (h : s.Fed) (change : Change) :
    s.StepSpec (.record change) := by
  by_cases haccepts : s.runner.changeTx.Accepts
  · have hsend := Channel.trySend_of_accepts haccepts change
    have hlt : s.runner.changeTx.queue.length < 1000 := by
      have hroom := haccepts.2
      rw [Channel.Full, h.capacity] at hroom
      omega
    have hnext : s.next (.record change) =
        { s with
          runner :=
            { s.runner with
              changeTx :=
                { s.runner.changeTx with queue := s.runner.changeTx.queue ++ [change] } } } := by
      rw [next, ReplicatorRunner.recordChange, hsend]
    refine ⟨?_, ?_, ?_⟩
    · rw [hnext]
      refine ⟨h.alive, h.capacity, ?_, h.replicator⟩
      rw [List.length_append, List.length_singleton]
      exact hlt
    · simp [hnext, answer, haccepts, untold]
    · rw [hnext]
      exact heard_refl _
  · rcases Channel.trySend_refused haccepts change with ⟨e, hsend⟩
    have hnext : s.next (.record change) = s := by
      rw [next, ReplicatorRunner.recordChange, hsend]
    refine ⟨?_, ?_, ?_⟩
    · rw [hnext]
      exact h
    · simp [hnext, answer, haccepts]
    · rw [hnext]
      exact heard_refl _

theorem HookFeed.receive_spec {s : HookFeed} (h : s.Fed) : s.StepSpec .receive := by
  cases s with
  | mk runner hand =>
      cases hand with
      | some change => exact ⟨h, (List.append_nil _).symm, heard_refl _⟩
      | none =>
          cases hqueue : runner.changeTx.queue with
          | nil =>
              have hnext : HookFeed.next ⟨runner, none⟩ .receive = ⟨runner, none⟩ := by
                simp [next, receive, Channel.recv, hqueue]
              refine ⟨?_, ?_, ?_⟩
              · rw [hnext]
                exact h
              · simp [hnext, answer]
              · rw [hnext]
                exact heard_refl _
          | cons change rest =>
              have hnext : HookFeed.next ⟨runner, none⟩ .receive =
                  { runner :=
                      { runner with
                        replicator := runner.replicator.recordChange change
                        changeTx := { runner.changeTx with queue := rest } }
                    hand := some change } := by
                simp [next, receive, Channel.recv, hqueue]
              have hlength : rest.length ≤ 1000 := by
                have hle := h.queue
                dsimp only at hle
                rw [hqueue, List.length_cons] at hle
                omega
              have hreplicator : runner.replicator = Replicator.new := h.replicator
              refine ⟨?_, ?_, ?_⟩
              · rw [hnext]
                refine ⟨h.alive, h.capacity, hlength, ?_⟩
                dsimp only
                rw [hreplicator, replicator_recordChange]
              · simp [hnext, answer, untold, hqueue]
              · rw [hnext]
                exact heard_refl _

theorem HookFeed.notify_spec {s : HookFeed} (h : s.Fed) : s.StepSpec .notify := by
  cases s with
  | mk runner hand =>
      cases hand with
      | none => exact ⟨h, (List.append_nil _).symm, heard_refl _⟩
      | some change =>
          refine ⟨⟨h.alive, h.capacity, h.queue, h.replicator⟩, ?_, heard_tell _ _⟩
          simp [answer, next, notify, untold]

theorem HookFeed.next_spec {s : HookFeed} (h : s.Fed) (event : HookEvent) :
    s.StepSpec event := by
  cases event with
  | record change => exact record_spec h change
  | registerHook =>
      exact ⟨⟨h.alive, h.capacity, h.queue, h.replicator⟩, (List.append_nil _).symm,
        heard_join _⟩
  | recordDbChange id timestamp ns db key value =>
      refine ⟨⟨h.alive, h.capacity, h.queue, ?_⟩, (List.append_nil _).symm, heard_refl _⟩
      simp only [next, SyncContext.recordDbChange]
      rw [h.replicator, replicator_recordChange]
  | receive => exact receive_spec h
  | notify => exact notify_spec h

/-! ## Whole runs -/

theorem acceptedIn_cons (s : HookFeed) (event : HookEvent) (events : List HookEvent) :
    acceptedIn s (event :: events) =
      (s.answer event).accepted ++ acceptedIn (s.next event) events :=
  rfl

theorem toldIn_cons (s : HookFeed) (event : HookEvent) (events : List HookEvent) :
    toldIn s (event :: events) = (s.answer event).told ++ toldIn (s.next event) events :=
  rfl

/-- What a run does. -/
theorem HookFeed.run_spec {s : HookFeed} (h : s.Fed) (events : List HookEvent) :
    (hookFeed.run s events).Fed ∧
      toldIn s events ++ (hookFeed.run s events).untold = s.untold ++ acceptedIn s events ∧
      Heard (toldIn s events) s.runner.hooks (hookFeed.run s events).runner.hooks := by
  induction events generalizing s with
  | nil => exact ⟨h, (List.append_nil _).symm, heard_refl _⟩
  | cons event events ih =>
      have hstep := next_spec h event
      rcases ih hstep.fed with ⟨hfed, hflow, hheard⟩
      refine ⟨hfed, ?_, ?_⟩
      · have hrun : hookFeed.run s (event :: events) = hookFeed.run (s.next event) events := rfl
        rw [toldIn_cons, acceptedIn_cons, hrun, List.append_assoc, hflow, ← List.append_assoc,
          hstep.flow, List.append_assoc]
      · rw [toldIn_cons, run_cons]
        exact hstep.heard.trans hheard

/-- A step brings what it records while there is room in the channel. -/
theorem HookFeed.accepted_of_room {s : HookFeed} (h : s.Fed) (event : HookEvent)
    (hlt : s.runner.changeTx.queue.length < 1000) :
    (s.answer event).accepted = event.recorded := by
  cases event with
  | record change =>
      refine if_pos ⟨h.alive, ?_⟩
      rw [Channel.Full, h.capacity]
      omega
  | _ => rfl

/-- What is accepted was recorded, and a change is refused only while the channel is full. -/
theorem HookFeed.accepted_sublist {s : HookFeed} (h : s.Fed) (events : List HookEvent) :
    (acceptedIn s events).Sublist (events.flatMap HookEvent.recorded) ∧
      (hookFeed.Along (fun s _ => s.runner.changeTx.queue.length < 1000) s events →
        acceptedIn s events = events.flatMap HookEvent.recorded) := by
  induction events generalizing s with
  | nil => exact ⟨List.Sublist.refl _, fun _ => rfl⟩
  | cons event events ih =>
      rcases ih (next_spec h event).fed with ⟨hsublist, hall⟩
      rw [acceptedIn_cons, List.flatMap_cons]
      have hfirst : (s.answer event).accepted.Sublist event.recorded := by
        cases event with
        | record change =>
            rw [answer]
            split
            · exact List.Sublist.refl _
            · exact List.nil_sublist _
        | registerHook => exact List.Sublist.refl _
        | recordDbChange => exact List.Sublist.refl _
        | receive => exact List.Sublist.refl _
        | notify => exact List.Sublist.refl _
      refine ⟨hfirst.append hsublist, fun halong => ?_⟩
      rw [accepted_of_room h event halong.1, hall halong.2]

/-- What holds of a hook that is registered during a run, and of the changes of the run. -/
structure HooksFed (before after : List HookEvent) : Prop where
  /-- The hook was given what the task told the hooks from then on. -/
  given : (hookFeed.run .new (before ++ .registerHook :: after)).runner.hooks[
      (hookFeed.run .new before).runner.hooks.length]? =
    some (toldIn ((hookFeed.run .new before).next .registerHook) after)
  /-- What was accepted was told, is in the hand of the task, or waits, in this order. -/
  flow : acceptedIn .new (before ++ .registerHook :: after) =
    toldIn .new (before ++ .registerHook :: after) ++
      (hookFeed.run .new (before ++ .registerHook :: after)).untold
  /-- Only what was recorded in the runner is accepted. -/
  sublist : (acceptedIn .new (before ++ .registerHook :: after)).Sublist
    ((before ++ .registerHook :: after).flatMap HookEvent.recorded)
  /-- A single change is refused only while so many others wait. -/
  refusedOnly : hookFeed.Along
    (fun s event => s.runner.changeTx.queue.length < 1000 →
      (s.answer event).accepted = event.recorded) .new (before ++ .registerHook :: after)
  /-- Nothing is refused unless so many changes wait. -/
  refused : hookFeed.Along (fun s _ => s.runner.changeTx.queue.length < 1000) .new
      (before ++ .registerHook :: after) →
    acceptedIn .new (before ++ .registerHook :: after) =
      (before ++ .registerHook :: after).flatMap HookEvent.recorded
  /-- Nothing reaches the log of the replicator, on either way. -/
  replicator : (hookFeed.run .new (before ++ .registerHook :: after)).runner.replicator =
    Replicator.new

/-- However recording, registering and the task are interleaved: a hook is given exactly
the changes whose turn comes after its registration, each once and in the order of
recording; a change is lost on the way to the hooks only if a thousand others wait; and on
the way to the log of the replicator all are lost. -/
theorem hooks_fed (before after : List HookEvent) : HooksFed before after := by
  have hwhole := HookFeed.run_spec fed_new (before ++ .registerHook :: after)
  have hbefore := HookFeed.run_spec fed_new before
  have hregistered := (HookFeed.next_spec hbefore.1 .registerHook).fed
  have hafter := HookFeed.run_spec hregistered after
  have haccepted := HookFeed.accepted_sublist fed_new (before ++ .registerHook :: after)
  have hroom := Along.of_invariant (M := hookFeed) (I := HookFeed.Fed)
    (fun _ event h _ => (HookFeed.next_spec h event).fed)
    (fun _ event h _ => HookFeed.accepted_of_room h event) fed_new
    (along_trivial HookFeed.new (before ++ .registerHook :: after))
  refine ⟨?_, hwhole.2.1.symm, haccepted.1, hroom, haccepted.2, hwhole.1.replicator⟩
  rw [run_append, run_cons]
  exact hafter.2.2.of_joined

end IrohSync
