import Mathlib.Algebra.Order.Ring.Nat
import IrohSync.Lib.Broadcast
import IrohSync.Lib.Machine
import IrohSync.Lib.Turns
import IrohSync.Discovery.ConnectTicket

/-!
# Starting and stopping a replicator

Any number of calls that start and stop one replicator, and the main loops that the
former spawn, in any interleaving of their steps.  The stop signal goes over a broadcast
channel, to which a main loop subscribes in a step of its own after it was spawned.

Main results:

- Theorem {lit}`run_start`: without other calls the steps of a start are that start.
- Theorem {lit}`Invariant.next`: what every step keeps.
- Theorem {lit}`shutdown_heard`: in which runs no stop is missed.
-/

namespace IrohSync

namespace Lifecycle

open Machine Discovery

/-! ## The tasks -/

/-- Where a call of start stands.  The handle that it returns is the number of the main
loop that it spawned. -/
inductive StartStage where
  | swap
  | bind
  | discover
  | spawn
  | spawned (k : Nat)
  | returned (result : Except Error Nat)

/-- Where a main loop stands.  The receiver of the stop signal is given by its place in
the channel. -/
inductive LoopStage where
  | subscribe
  | select (next : Nat)
  | sync (next : Nat)
  | takeEndpoint
  | close
  | finished
  | panicked
deriving DecidableEq

/-- Where a call of shutdown stands. -/
inductive ShutdownStage where
  | load
  | send
  | takeEndpoint
  | close
  | returned
deriving DecidableEq

/-- A call of shutdown, with the loops whose start had returned when it was called. -/
structure ShutdownCall where
  after : List Nat
  stage : ShutdownStage
deriving DecidableEq

/-- A replicator, the calls that start and stop it and the main loops. -/
structure System (ι : Type) where
  inner : ReplicatorInner ι
  shutdownTx : Broadcast Unit
  syncInterval : Nat
  starts : List StartStage
  loops : List LoopStage
  shutdowns : List ShutdownCall

variable {ι : Type}

/-- A new replicator. -/
def System.new (syncInterval : Nat) : System ι where
  inner := .new
  shutdownTx := .new 1
  syncInterval := syncInterval
  starts := []
  loops := []
  shutdowns := []

/-! ## Steps -/

/-- A step of a call of start; the endpoint is bound or an error is returned. -/
def System.startStep (s : System ι) (bound : Except Error (Endpoint ι)) :
    StartStage → System ι × StartStage
  | .swap =>
      if s.inner.running then (s, .returned (.error (.other "replicator already started")))
      else ({ s with inner := { s.inner with running := true } }, .bind)
  | .bind =>
      match bound with
      | .error e => (s, .returned (.error e))
      | .ok endpoint =>
          ({ s with inner := { s.inner with endpoint := some endpoint } }, .discover)
  | .discover => ({ s with inner := { s.inner with discovery := some .new } }, .spawn)
  | .spawn => ({ s with loops := s.loops ++ [.subscribe] }, .spawned s.loops.length)
  | .spawned k => (s, .returned (.ok k))
  | .returned result => (s, .returned result)

/-- A step of a main loop.  The timer of a zero interval cannot be built; the stop
signal, also one that was overrun, goes before a tick of the timer. -/
def System.loopStep (s : System ι) (ticked : Bool) : LoopStage → System ι × LoopStage
  | .subscribe =>
      if s.syncInterval = 0 then (s, .panicked) else (s, .select s.shutdownTx.subscribe)
  | .select next =>
      match (s.shutdownTx.recv next).2 with
      | .error .empty => if ticked then (s, .sync next) else (s, .select next)
      | _ => (s, .takeEndpoint)
  | .sync next => (s, .select next)
  | .takeEndpoint => ({ s with inner := { s.inner with endpoint := none } }, .close)
  | .close => ({ s with inner := { s.inner with running := false } }, .finished)
  | .finished => (s, .finished)
  | .panicked => (s, .panicked)

/-- A step of a call of shutdown. -/
def System.shutdownStep (s : System ι) : ShutdownStage → System ι × ShutdownStage
  | .load => if s.inner.running then (s, .send) else (s, .returned)
  | .send => ({ s with shutdownTx := s.shutdownTx.send () }, .takeEndpoint)
  | .takeEndpoint =>
      match s.inner.endpoint with
      | none => (s, .returned)
      | some _ => ({ s with inner := { s.inner with endpoint := none } }, .close)
  | .close => (s, .returned)
  | .returned => (s, .returned)

/-- The loops whose start has returned. -/
def System.startedLoops (s : System ι) : List Nat :=
  s.starts.filterMap fun
    | .returned (.ok k) => some k
    | _ => none

/-- A new call, or a step of one that was made or of a main loop. -/
inductive Event (ι : Type) where
  | start
  | startStep (i : Nat) (bound : Except Error (Endpoint ι))
  | loopStep (k : Nat) (ticked : Bool)
  | shutdown
  | shutdownStep (j : Nat)

/-- The state after an event. -/
def System.next (s : System ι) : Event ι → System ι
  | .start => { s with starts := s.starts ++ [.swap] }
  | .startStep i bound =>
      match s.starts[i]? with
      | none => s
      | some stage =>
          let moved := s.startStep bound stage
          { moved.1 with starts := s.starts.set i moved.2 }
  | .loopStep k ticked =>
      match s.loops[k]? with
      | none => s
      | some stage =>
          let moved := s.loopStep ticked stage
          { moved.1 with loops := s.loops.set k moved.2 }
  | .shutdown => { s with shutdowns := s.shutdowns ++ [⟨s.startedLoops, .load⟩] }
  | .shutdownStep j =>
      match s.shutdowns[j]? with
      | none => s
      | some call =>
          let moved := s.shutdownStep call.stage
          { moved.1 with shutdowns := s.shutdowns.set j { call with stage := moved.2 } }

/-- All interleavings of calls and main loops. -/
def lifecycle : Machine (System ι) (Event ι) Unit where
  next := System.next
  answer _ _ := ()

/-! ## Missed signals -/

/-- The loop was spawned and has not left its loop. -/
def LoopStage.Running : LoopStage → Prop
  | .subscribe => True
  | .select _ => True
  | .sync _ => True
  | _ => False

/-- A signal waits for the loop.  One that has not subscribed gets no signal. -/
def System.Pending (s : System ι) : LoopStage → Prop
  | .select next => s.shutdownTx.unread next ≠ []
  | .sync next => s.shutdownTx.unread next ≠ []
  | _ => False

/-- The loop with this number is not running, or a signal waits for it. -/
def System.Hears (s : System ι) (k : Nat) : Prop :=
  ∀ stage, s.loops[k]? = some stage → stage.Running → s.Pending stage

/-- A call of shutdown that was made after start had returned has itself returned, and
the main loop runs on without a signal. -/
def System.Missed (s : System ι) : Prop :=
  ∃ call ∈ s.shutdowns, call.stage = .returned ∧ ∃ k ∈ call.after, ¬ s.Hears k

/-- A call of shutdown that was made after start had returned sends its signal only when
the main loop has subscribed. -/
def SendsHeard (s : System ι) : Event ι → Prop
  | .shutdownStep j => ∀ call, s.shutdowns[j]? = some call → call.stage = .send →
      ∀ k ∈ call.after, s.loops[k]? ≠ some .subscribe
  | _ => True

/-! ## What every step keeps -/

/-- A call of start that is to spawn a main loop. -/
def StartStage.starting : StartStage → Bool
  | .bind => true
  | .discover => true
  | .spawn => true
  | _ => false

/-- The main loop that a call of start has spawned. -/
def StartStage.loop? : StartStage → Option Nat
  | .spawned k => some k
  | .returned (.ok k) => some k
  | _ => none

/-- A main loop that has not ended. -/
def LoopStage.alive : LoopStage → Bool
  | .finished => false
  | .panicked => false
  | _ => true

/-- The place of the receiver of a main loop. -/
def LoopStage.place? : LoopStage → Option Nat
  | .select next => some next
  | .sync next => some next
  | _ => none

/-- A call of shutdown has sent its signal or does without one. -/
def ShutdownStage.Sent : ShutdownStage → Prop
  | .load => False
  | .send => False
  | _ => True

/-- How many main loops there are or will be. -/
def System.busy (s : System ι) : Nat :=
  s.starts.countP StartStage.starting + s.loops.countP LoopStage.alive

/-- There is at most one main loop, and only while the flag is set; calls know only loops
that were spawned and loops only places in the channel; and after a signal was sent the
loops that it was for hear it. -/
structure Invariant (s : System ι) : Prop where
  exclusive : s.busy ≤ s.inner.running.toNat
  spawned : ∀ stage ∈ s.starts, ∀ k, stage.loop? = some k → k < s.loops.length
  after : ∀ call ∈ s.shutdowns, ∀ k ∈ call.after, k < s.loops.length
  places : ∀ stage ∈ s.loops, ∀ next, stage.place? = some next →
    next ≤ s.shutdownTx.sent.length
  heard : ∀ call ∈ s.shutdowns, call.stage.Sent → ∀ k ∈ call.after, s.Hears k

theorem Invariant.new (syncInterval : Nat) : Invariant (System.new syncInterval : System ι) where
  exclusive := Nat.zero_le _
  spawned := by simp [System.new]
  after := by simp [System.new]
  places := by simp [System.new]
  heard := by simp [System.new]

section Steps

variable {s : System ι}

/-- Where the flag is not set no loop is running. -/
theorem Invariant.hears_of_stopped (h : Invariant s) (hrunning : s.inner.running = false)
    (k : Nat) : s.Hears k := by
  intro stage hstage hrun
  have halive : stage.alive = true := by
    cases stage <;> first | rfl | exact absurd hrun id
  have hpos : 0 < s.loops.countP LoopStage.alive :=
    List.countP_pos_iff.mpr ⟨stage, List.mem_of_getElem? hstage, halive⟩
  have hexclusive := h.exclusive
  rw [hrunning, System.busy] at hexclusive
  exact absurd hexclusive (by simp only [Bool.toNat_false]; omega)

/-- The loops whose start has returned are loops. -/
theorem Invariant.startedLoops_lt (h : Invariant s) {k : Nat} (hk : k ∈ s.startedLoops) :
    k < s.loops.length := by
  rcases List.mem_filterMap.mp hk with ⟨stage, hmem, hstage⟩
  refine h.spawned stage hmem k ?_
  split at hstage
  · exact hstage
  · contradiction

/-- A step of a call of start that spawns nothing. -/
theorem Invariant.moveStart (h : Invariant s) {i : Nat} {stage : StartStage}
    (hstage : s.starts[i]? = some stage) (stage' : StartStage) (inner : ReplicatorInner ι)
    (hbusy : stage'.starting.toNat + s.inner.running.toNat ≤
      inner.running.toNat + stage.starting.toNat)
    (hloop : ∀ k, stage'.loop? = some k → stage.loop? = some k) :
    Invariant { s with inner := inner, starts := s.starts.set i stage' } where
  exclusive := by
    have hcount := Turns.countP_set StartStage.starting (u := stage') hstage
    have hexclusive := h.exclusive
    simp only [System.busy] at hexclusive ⊢
    omega
  spawned := by
    intro other hmem k hk
    rcases List.mem_or_eq_of_mem_set hmem with hold | rfl
    · exact h.spawned other hold k hk
    · exact h.spawned stage (List.mem_of_getElem? hstage) k (hloop k hk)
  after := h.after
  places := h.places
  heard := h.heard

/-- The step that spawns a main loop. -/
theorem Invariant.spawnLoop (h : Invariant s) {i : Nat} (hstage : s.starts[i]? = some .spawn) :
    Invariant { s with
      starts := s.starts.set i (.spawned s.loops.length)
      loops := s.loops ++ [.subscribe] } where
  exclusive := by
    have hcount := Turns.countP_set StartStage.starting (u := .spawned s.loops.length) hstage
    have hexclusive := h.exclusive
    simp only [System.busy, List.countP_append, List.countP_singleton, LoopStage.alive,
      StartStage.starting, Bool.toNat_true, Bool.toNat_false, if_true] at hexclusive hcount ⊢
    omega
  spawned := by
    intro other hmem k hk
    rw [List.length_append, List.length_singleton]
    rcases List.mem_or_eq_of_mem_set hmem with hold | rfl
    · exact Nat.lt_succ_of_lt (h.spawned other hold k hk)
    · exact Option.some.inj hk ▸ Nat.lt_succ_self _
  after := by
    intro call hmem k hk
    rw [List.length_append]
    exact Nat.lt_add_right _ (h.after call hmem k hk)
  places := by
    intro other hmem next hnext
    rcases List.mem_append.mp hmem with hold | hnew
    · exact h.places other hold next hnext
    · rw [List.mem_singleton.mp hnew] at hnext
      contradiction
  heard := by
    intro call hmem hsent k hk other hother
    have hlt := h.after call hmem k hk
    exact h.heard call hmem hsent k hk other ((List.getElem?_append_left hlt).symm.trans hother)

/-- A step of a main loop. -/
theorem Invariant.moveLoop (h : Invariant s) {k : Nat} {stage : LoopStage}
    (hstage : s.loops[k]? = some stage) (stage' : LoopStage) (inner : ReplicatorInner ι)
    (hbusy : stage'.alive.toNat + s.inner.running.toNat ≤
      inner.running.toNat + stage.alive.toNat)
    (hplace : ∀ next, stage'.place? = some next → next ≤ s.shutdownTx.sent.length)
    (hhears : (stage.Running → s.Pending stage) → stage'.Running → s.Pending stage') :
    Invariant { s with inner := inner, loops := s.loops.set k stage' } where
  exclusive := by
    have hcount := Turns.countP_set LoopStage.alive (u := stage') hstage
    have hexclusive := h.exclusive
    simp only [System.busy] at hexclusive ⊢
    omega
  spawned := by
    intro other hmem k' hk'
    rw [List.length_set]
    exact h.spawned other hmem k' hk'
  after := by
    intro call hmem k' hk'
    rw [List.length_set]
    exact h.after call hmem k' hk'
  places := by
    intro other hmem next hnext
    rcases List.mem_or_eq_of_mem_set hmem with hold | rfl
    · exact h.places other hold next hnext
    · exact hplace next hnext
  heard := by
    intro call hmem hsent k' hk' other hother
    have hbefore := h.heard call hmem hsent k' hk'
    by_cases heq : k' = k
    · subst heq
      have hlt := (List.getElem?_eq_some_iff.mp hstage).1
      simp only [List.getElem?_set_self hlt, Option.some.injEq] at hother
      subst hother
      exact hhears (hbefore stage hstage)
    · simp only [List.getElem?_set_ne (Ne.symm heq)] at hother
      exact hbefore other hother

/-- A step of a call of shutdown that sends nothing. -/
theorem Invariant.moveShutdown (h : Invariant s) {j : Nat} {call : ShutdownCall}
    {stage' : ShutdownStage} (hcall : s.shutdowns[j]? = some call) (inner : ReplicatorInner ι)
    (hrunning : inner.running = s.inner.running)
    (hheard : stage'.Sent → ∀ k ∈ call.after, s.Hears k) :
    Invariant { s with
      inner := inner
      shutdowns := s.shutdowns.set j { call with stage := stage' } } where
  exclusive := by
    rw [hrunning]
    exact h.exclusive
  spawned := h.spawned
  after := by
    intro other hmem k hk
    rcases List.mem_or_eq_of_mem_set hmem with hold | rfl
    · exact h.after other hold k hk
    · exact h.after call (List.mem_of_getElem? hcall) k hk
  places := h.places
  heard := by
    intro other hmem hsent k hk
    rcases List.mem_or_eq_of_mem_set hmem with hold | rfl
    · exact h.heard other hold hsent k hk
    · exact hheard hsent k hk

/-- A signal is sent: it waits for every loop that has subscribed. -/
theorem Invariant.hears_send (h : Invariant s) {k : Nat}
    (hk : s.loops[k]? ≠ some .subscribe) :
    System.Hears { s with shutdownTx := s.shutdownTx.send () } k := by
  intro stage hstage hrun
  have hplace := h.places stage (List.mem_of_getElem? hstage)
  cases stage with
  | subscribe => exact absurd hstage hk
  | select next => exact Broadcast.unread_send_ne_nil (hplace next rfl) ()
  | sync next => exact Broadcast.unread_send_ne_nil (hplace next rfl) ()
  | _ => exact absurd hrun id

/-- Sending a signal takes none away. -/
theorem Invariant.sendSignal (h : Invariant s) :
    Invariant { s with shutdownTx := s.shutdownTx.send () } where
  exclusive := h.exclusive
  spawned := h.spawned
  after := h.after
  places := by
    intro stage hmem next hnext
    unfold Broadcast.send
    rw [List.length_append]
    exact Nat.le_add_right_of_le (h.places stage hmem next hnext)
  heard := by
    intro call hmem hsent k hk
    have hbefore := h.heard call hmem hsent k hk
    exact h.hears_send fun hsubscribe => hbefore _ hsubscribe trivial

/-! ## One step -/

/-- A new call of start or of shutdown. -/
theorem Invariant.next_start (h : Invariant s) : Invariant (s.next .start) where
  exclusive := by
    have hexclusive := h.exclusive
    simpa [System.next, System.busy, StartStage.starting] using hexclusive
  spawned := by
    intro stage hmem k hk
    rcases List.mem_append.mp hmem with hold | hnew
    · exact h.spawned stage hold k hk
    · rw [List.mem_singleton.mp hnew] at hk
      contradiction
  after := h.after
  places := h.places
  heard := h.heard

theorem Invariant.next_shutdown (h : Invariant s) : Invariant (s.next .shutdown) where
  exclusive := h.exclusive
  spawned := h.spawned
  after := by
    intro call hmem k hk
    rcases List.mem_append.mp hmem with hold | hnew
    · exact h.after call hold k hk
    · rw [List.mem_singleton.mp hnew] at hk
      exact h.startedLoops_lt hk
  places := h.places
  heard := by
    intro call hmem hsent k hk
    rcases List.mem_append.mp hmem with hold | hnew
    · exact h.heard call hold hsent k hk
    · rw [List.mem_singleton.mp hnew] at hsent
      contradiction

/-- A step of a call of start. -/
theorem Invariant.next_startStep (h : Invariant s) (i : Nat)
    (bound : Except Error (Endpoint ι)) : Invariant (s.next (.startStep i bound)) := by
  cases hstage : s.starts[i]? with
  | none => simpa only [System.next, hstage] using h
  | some stage =>
      have hkeep := h.moveStart hstage
      simp only [System.next, hstage]
      cases stage with
      | swap =>
          cases hrunning : s.inner.running with
          | true =>
              simp only [System.startStep, hrunning, if_true]
              exact hkeep _ _ (by simp [StartStage.starting]) (by simp [StartStage.loop?])
          | false =>
              simp only [System.startStep, hrunning, Bool.false_eq_true, if_false]
              exact hkeep _ _ (by simp [StartStage.starting, hrunning])
                (by simp [StartStage.loop?])
      | bind =>
          cases bound with
          | error e =>
              simp only [System.startStep]
              exact hkeep _ _ (by simp [StartStage.starting]) (by simp [StartStage.loop?])
          | ok endpoint =>
              simp only [System.startStep]
              exact hkeep _ _ (by simp [StartStage.starting, Nat.add_comm])
                (by simp [StartStage.loop?])
      | discover =>
          simp only [System.startStep]
          exact hkeep _ _ (by simp [StartStage.starting, Nat.add_comm])
            (by simp [StartStage.loop?])
      | spawn => exact h.spawnLoop hstage
      | spawned k =>
          simp only [System.startStep]
          exact hkeep _ _ (by simp [StartStage.starting]) (fun _ hk => hk)
      | returned result =>
          simp only [System.startStep]
          exact hkeep _ _ (by simp [StartStage.starting]) (fun _ hk => hk)

/-- A main loop that takes its signal, or finds none. -/
theorem System.loopStep_select (s : System ι) (ticked : Bool) (next : Nat) :
    (s.shutdownTx.unread next ≠ [] ∧ s.loopStep ticked (.select next) = (s, .takeEndpoint)) ∨
      s.shutdownTx.unread next = [] ∧
        s.loopStep ticked (.select next) = (s, if ticked then .sync next else .select next) := by
  by_cases hunread : s.shutdownTx.unread next = []
  · right
    rw [loopStep, Broadcast.recv_empty_iff.mpr hunread]
    exact ⟨hunread, by cases ticked <;> rfl⟩
  · left
    refine ⟨hunread, ?_⟩
    have hsome := mt Broadcast.recv_empty_iff.mp hunread
    rw [loopStep]
    split
    · contradiction
    · rfl

/-- A step of a main loop. -/
theorem Invariant.next_loopStep (h : Invariant s) (k : Nat) (ticked : Bool) :
    Invariant (s.next (.loopStep k ticked)) := by
  cases hstage : s.loops[k]? with
  | none => simpa only [System.next, hstage] using h
  | some stage =>
      have hplace := h.places stage (List.mem_of_getElem? hstage)
      have hkeep := h.moveLoop hstage
      simp only [System.next, hstage]
      cases stage with
      | subscribe =>
          by_cases hzero : s.syncInterval = 0
          · simp only [System.loopStep, if_pos hzero]
            exact hkeep .panicked s.inner (by simp [LoopStage.alive])
              (by simp [LoopStage.place?]) (fun _ => False.elim)
          · simp only [System.loopStep, if_neg hzero]
            refine hkeep _ _ (by simp [LoopStage.alive, Nat.add_comm]) ?_ ?_
            · exact fun next hnext => Nat.le_of_eq (Option.some.inj hnext).symm
            · -- nothing was to be heard before the loop subscribed
              exact fun hbefore => False.elim (hbefore trivial)
      | select next =>
          rcases s.loopStep_select ticked next with ⟨_, hmoved⟩ | ⟨_, hmoved⟩
          · simp only [hmoved]
            exact hkeep .takeEndpoint _ (by simp [LoopStage.alive, Nat.add_comm])
              (by simp [LoopStage.place?]) (fun _ => False.elim)
          · simp only [hmoved]
            cases ticked with
            | true =>
                exact hkeep (.sync next) s.inner (by simp [LoopStage.alive, Nat.add_comm]) hplace
                  (fun hbefore => hbefore)
            | false =>
                exact hkeep (.select next) s.inner (by simp [LoopStage.alive, Nat.add_comm])
                  hplace (fun hbefore => hbefore)
      | sync next =>
          simp only [System.loopStep]
          exact hkeep (.select next) s.inner (by simp [LoopStage.alive, Nat.add_comm])
            hplace (fun hbefore => hbefore)
      | takeEndpoint =>
          simp only [System.loopStep]
          exact hkeep .close _ (by simp [LoopStage.alive, Nat.add_comm])
            (by simp [LoopStage.place?]) (fun _ => False.elim)
      | close =>
          simp only [System.loopStep]
          refine hkeep .finished _ ?_ (by simp [LoopStage.place?]) (fun _ => False.elim)
          simpa [LoopStage.alive] using Bool.toNat_le s.inner.running
      | finished =>
          simp only [System.loopStep]
          exact hkeep .finished s.inner (by simp [LoopStage.alive])
            (by simp [LoopStage.place?]) (fun _ => False.elim)
      | panicked =>
          simp only [System.loopStep]
          exact hkeep .panicked s.inner (by simp [LoopStage.alive])
            (by simp [LoopStage.place?]) (fun _ => False.elim)

/-- A step of a call of shutdown that meets the condition. -/
theorem Invariant.next_shutdownStep (h : Invariant s) {j : Nat}
    (hheard : SendsHeard s (.shutdownStep j)) : Invariant (s.next (.shutdownStep j)) := by
  cases hcall : s.shutdowns[j]? with
  | none => simpa only [System.next, hcall] using h
  | some call =>
      have hbefore := h.heard call (List.mem_of_getElem? hcall)
      simp only [System.next, hcall]
      cases hstage : call.stage with
      | load =>
          cases hrunning : s.inner.running with
          | true =>
              simp only [System.shutdownStep, hrunning, if_true]
              exact h.moveShutdown hcall _ rfl False.elim
          | false =>
              -- the main loop has ended
              simp only [System.shutdownStep, hrunning, Bool.false_eq_true, if_false]
              exact h.moveShutdown hcall _ rfl fun _ k _ => h.hears_of_stopped hrunning k
      | send =>
          simp only [System.shutdownStep]
          exact h.sendSignal.moveShutdown hcall _ rfl fun _ k hk =>
            h.hears_send (hheard call hcall hstage k hk)
      | takeEndpoint =>
          rw [hstage] at hbefore
          cases hendpoint : s.inner.endpoint with
          | none =>
              simp only [System.shutdownStep, hendpoint]
              exact h.moveShutdown hcall _ rfl fun _ => hbefore trivial
          | some endpoint =>
              simp only [System.shutdownStep, hendpoint]
              exact h.moveShutdown hcall _ rfl fun _ => hbefore trivial
      | close =>
          rw [hstage] at hbefore
          simp only [System.shutdownStep]
          exact h.moveShutdown hcall _ rfl fun _ => hbefore trivial
      | returned =>
          rw [hstage] at hbefore
          simp only [System.shutdownStep]
          exact h.moveShutdown hcall _ rfl fun _ => hbefore trivial

/-- Every step that meets the condition keeps the invariant. -/
theorem Invariant.next (h : Invariant s) {e : Event ι} (hheard : SendsHeard s e) :
    Invariant (s.next e) := by
  cases e with
  | start => exact h.next_start
  | startStep i bound => exact h.next_startStep i bound
  | loopStep k ticked => exact h.next_loopStep k ticked
  | shutdown => exact h.next_shutdown
  | shutdownStep j => exact h.next_shutdownStep hheard

/-- Under the invariant no stop is missed. -/
theorem Invariant.not_missed (h : Invariant s) : ¬ s.Missed := by
  rintro ⟨call, hmem, hreturned, k, hk, hmissed⟩
  have hheard := h.heard call hmem
  rw [hreturned] at hheard
  exact hmissed (hheard trivial k hk)

end Steps

/-! ## A start alone -/

/-- Without other calls the steps of a start are that start. -/
theorem run_start (s : System ι) (bound : Except Error (Endpoint ι)) :
    ∃ stage, (lifecycle.run s (.start ::
        List.replicate 5 (.startStep s.starts.length bound))).starts = s.starts ++ [stage] ∧
      (lifecycle.run s (.start ::
        List.replicate 5 (.startStep s.starts.length bound))).inner = (s.inner.start bound).1 ∧
      ∃ result, stage = .returned result ∧
        result.map (fun _ => ()) = (s.inner.start bound).2 := by
  have hset : ∀ stage stage' : StartStage,
      (s.starts ++ [stage]).set s.starts.length stage' = s.starts ++ [stage'] :=
    fun stage stage' => by simp
  cases hrunning : s.inner.running with
  | true =>
      simp [lifecycle, List.replicate, System.next, System.startStep, hset, hrunning,
        ReplicatorInner.start, Except.map]
  | false =>
      cases bound with
      | error e =>
          simp [lifecycle, List.replicate, System.next, System.startStep, hset, hrunning,
            ReplicatorInner.start, Except.map]
      | ok endpoint =>
          simp [lifecycle, List.replicate, System.next, System.startStep, hset, hrunning,
            ReplicatorInner.start, Except.map]

/-! ## Runs -/

/-- A step of a call of shutdown moves that call and no main loop. -/
theorem System.next_shutdownStep {s : System ι} {j : Nat} {call : ShutdownCall}
    (hcall : s.shutdowns[j]? = some call) :
    (s.next (.shutdownStep j)).shutdowns[j]? =
        some { call with stage := (s.shutdownStep call.stage).2 } ∧
      (s.next (.shutdownStep j)).loops = s.loops := by
  have hlt := (List.getElem?_eq_some_iff.mp hcall).1
  have hloops : (s.shutdownStep call.stage).1.loops = s.loops := by
    unfold shutdownStep
    split <;> first | rfl | (split <;> rfl)
  simp only [next, hcall]
  exact ⟨List.getElem?_set_self hlt, hloops⟩

/-- A call of shutdown that has sent its signal returns after two more steps. -/
theorem System.shutdown_returns {s : System ι} {j : Nat} {call : ShutdownCall}
    (hcall : s.shutdowns[j]? = some call) (hstage : call.stage = .takeEndpoint) :
    (lifecycle.run s [.shutdownStep j, .shutdownStep j]).shutdowns[j]? =
        some { call with stage := .returned } ∧
      (lifecycle.run s [.shutdownStep j, .shutdownStep j]).loops = s.loops := by
  rcases next_shutdownStep hcall with ⟨hfirst, hloops⟩
  rcases next_shutdownStep hfirst with ⟨hsecond, hloops'⟩
  refine ⟨hsecond.trans ?_, hloops'.trans hloops⟩
  rw [hstage]
  cases hendpoint : s.inner.endpoint with
  | none => simp only [shutdownStep, hendpoint]
  | some endpoint => simp only [shutdownStep, hendpoint]

/-- A signal that a loop does not hear can be followed by the return of its call. -/
theorem missed_of_unheard {s : System ι} {e : Event ι} (hunheard : ¬ SendsHeard s e) :
    ∃ more, (lifecycle.run (s.next e) more).Missed := by
  cases e with
  | shutdownStep j =>
      unfold SendsHeard at hunheard
      push Not at hunheard
      rcases hunheard with ⟨call, hcall, hsend, k, hk, hsubscribe⟩
      rcases System.next_shutdownStep hcall with ⟨hsent, hloops⟩
      rcases System.shutdown_returns hsent (by rw [hsend]; rfl) with ⟨hreturned, hloops'⟩
      refine ⟨[.shutdownStep j, .shutdownStep j], _, List.mem_of_getElem? hreturned, rfl, k,
        hk, fun hhears => ?_⟩
      -- the loop has still not subscribed, so nothing waits for it
      rw [← hloops, ← hloops'] at hsubscribe
      exact hhears _ hsubscribe trivial
  | _ => exact absurd trivial hunheard

/-- In a run in which every call of shutdown made after start had returned sends its signal
only when the main loop has subscribed, no stop is missed; and after any other step one can
be. -/
theorem shutdown_heard (syncInterval : Nat) (events : List (Event ι))
    (hheard : lifecycle.Along SendsHeard (System.new syncInterval) events) :
    ¬ (lifecycle.run (System.new syncInterval) events).Missed ∧
      ∀ e, ¬ SendsHeard (lifecycle.run (System.new syncInterval) events) e →
        ∃ more, (lifecycle.run (System.new syncInterval) (events ++ e :: more)).Missed := by
  have hinvariant : Invariant (lifecycle.run (System.new syncInterval) events) :=
    run_invariant (M := lifecycle) (fun s e h hstep => h.next hstep) (.new syncInterval) hheard
  refine ⟨hinvariant.not_missed, fun e hunheard => ?_⟩
  rcases missed_of_unheard hunheard with ⟨more, hmissed⟩
  refine ⟨more, ?_⟩
  rw [run_append]
  exact hmissed

/-- A start that succeeds. -/
def startOnce : List (Event Unit) :=
  .start :: List.replicate 5 (.startStep 0 (.ok ⟨()⟩))

/-- A start, the first step of the main loop, and a call of shutdown up to its return. -/
def startedAndStopped : List (Event Unit) :=
  startOnce ++ [.loopStep 0 false, .shutdown, .shutdownStep 0, .shutdownStep 0, .shutdownStep 0,
    .shutdownStep 0]

/-- The signal of that call is heard. -/
theorem shutdown_heard_sample :
    ¬ (lifecycle.run (System.new 30 : System Unit) startedAndStopped).Missed ∧
      ∀ e, ¬ SendsHeard (lifecycle.run (System.new 30 : System Unit) startedAndStopped) e →
        ∃ more, (lifecycle.run (System.new 30 : System Unit)
          (startedAndStopped ++ e :: more)).Missed := by
  refine shutdown_heard 30 startedAndStopped ?_
  simp [startedAndStopped, startOnce, lifecycle, List.replicate, System.next, System.new,
    System.startStep, System.loopStep, System.shutdownStep, System.startedLoops, SendsHeard,
    ReplicatorInner.new]

/-- A call of shutdown that returns before the main loop has subscribed: the loop subscribes
and goes on with its timer, and no signal waits for it. -/
theorem missed_early :
    (lifecycle.run (System.new 30 : System Unit) (startOnce ++
      [.shutdown, .shutdownStep 0, .shutdownStep 0, .shutdownStep 0, .shutdownStep 0,
        .loopStep 0 false, .loopStep 0 true])).Missed := by
  refine ⟨⟨[0], .returned⟩, List.mem_singleton.mpr rfl, rfl, 0, List.mem_singleton.mpr rfl,
    fun hhears => ?_⟩
  have hpending := hhears (.sync 1) rfl trivial
  -- the loop has subscribed behind the signal
  exact hpending (Broadcast.unread_subscribe _)

end Lifecycle

end IrohSync
