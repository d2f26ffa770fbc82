import Mathlib.Data.List.Perm.Basic
import Mathlib.Logic.Function.Basic
import IrohSync.Lib.Turns
import IrohSync.Notify.Sequence

/-!
# Observers at once

Threads notify an observer of changes at the same time.  A call about a local change takes a
number and then publishes its event: it sends it on one channel after the other, under a lock
that publications share and that keeps subscribing and unsubscribing away.

Beside a run it is written down in which order the lock was taken, which numbers belong to calls
that have ended, and which of them had ended when a number was taken.

Main results:

- Theorem {lit}`call_alone`: a call without others in between does what it does in one step.
- Theorem {lit}`Observed.next`: what every step keeps.
- Theorem {lit}`observers_at_once`: on every channel is sent what is sent on it when each
  publication is one step, and subscribers get events of calls that do not overlap in the order
  of the calls.
-/

namespace IrohSync

namespace Notify

open Machine

variable {ι : Type}

/-! ## Calls under way -/

/-- A call that is about to take the lock with its event, or that has taken it and sends the
event on the channels that are left. -/
inductive ObserverTask (ι : Type) where
  | ready (event : ChangeEvent ι)
  | sending (event : ChangeEvent ι) (left : List Nat)

/-- A notifier, the calls under way and the readers.  Beside them are written down the
subscriptions, removals and publications in the order in which they took the lock, the numbers
of calls that have ended, and those that had ended when a number was taken. -/
structure ObserverRun (ι : Type) where
  notifier : ChangeNotifier ι
  tasks : List (ObserverTask ι)
  readers : List (Reader ι)
  order : List (FeedEvent ι)
  finished : List Nat
  before : Nat → List Nat

/-- A new notifier without calls. -/
def ObserverRun.start (bufferSize : Nat) : ObserverRun ι where
  notifier := .new bufferSize
  tasks := []
  readers := []
  order := []
  finished := []
  before := fun _ => []

/-- A step: to take a number and make an event of it, to make the event of a synced change, to
take the lock, to send on the next channel, to give the lock back, or another call. -/
inductive ObserverStep (ι : Type) where
  | notifyLocal (change : Change) (now : UInt64)
  | notifySync (change : Change) (peer : ι) (now : UInt64)
  | lock (i : Nat)
  | send (i : Nat)
  | finish (i : Nat)
  | subscribe (filter : SubscriptionFilter)
  | unsubscribe (id : UInt64)
  | recv (i : Nat)
  | tryRecv (i : Nat)

/-- The number of an event of a local change. -/
def ChangeEvent.number (event : ChangeEvent ι) : Option Nat :=
  match event.sourcePeer with
  | none => some event.sequence.toNat
  | some _ => none

/-- The number of the event of a call. -/
def ObserverTask.number : ObserverTask ι → Option Nat
  | .ready event => event.number
  | .sending event _ => event.number

/-- The number of the event of a call that has not taken the lock. -/
def ObserverTask.waiting : ObserverTask ι → Option Nat
  | .ready event => event.number
  | .sending _ _ => none

/-- The event that a call is going to send on a channel. -/
def ObserverTask.due (channel : Nat) : ObserverTask ι → Option (ChangeEvent ι)
  | .ready _ => none
  | .sending event left => if channel ∈ left then some event else none

/-- The call has taken the lock. -/
def ObserverTask.isSending : ObserverTask ι → Bool
  | .ready _ => false
  | .sending _ _ => true

/-- Send an event on one channel. -/
def ChangeNotifier.sendOn (n : ChangeNotifier ι) (channel : Nat) (event : ChangeEvent ι) :
    ChangeNotifier ι :=
  { n with channels := n.channels.modify channel (Broadcast.send · event) }

/-- The state after a step. -/
def ObserverRun.next (s : ObserverRun ι) : ObserverStep ι → ObserverRun ι
  | .notifyLocal change now =>
      let taken := s.notifier.incSequence
      { s with
        notifier := taken.1
        tasks := s.tasks ++ [.ready (.new (.ofOperation change.operation) change taken.2 now)]
        before := Function.update s.before taken.2.toNat s.finished }
  | .notifySync change peer now =>
      { s with tasks := s.tasks ++ [.ready (.fromSync change 0 peer now)] }
  | .lock i =>
      match s.tasks[i]? with
      | some (.ready event) =>
          { s with
            tasks := s.tasks.set i (.sending event s.notifier.senders)
            order := s.order ++ [.publish (.notify event)] }
      | some (.sending _ _) => s
      | none => s
  | .send i =>
      match s.tasks[i]? with
      | some (.sending event (sender :: left)) =>
          { s with
            notifier := s.notifier.sendOn sender event
            tasks := s.tasks.set i (.sending event left) }
      | some (.sending _ []) => s
      | some (.ready _) => s
      | none => s
  | .finish i =>
      match s.tasks[i]? with
      | some (.sending event []) =>
          { s with
            tasks := s.tasks.eraseIdx i
            finished := s.finished ++ event.number.toList }
      | some (.sending _ (_ :: _)) => s
      | some (.ready _) => s
      | none => s
  | .subscribe filter =>
      -- the lock is not free while an event is sent
      if s.tasks.any ObserverTask.isSending then s
      else if s.notifier.Opens then
        { s with
          notifier := (s.notifier.subscribe filter).1
          readers := s.readers ++ [⟨(s.notifier.subscribe filter).2, false, []⟩]
          order := s.order ++ [.subscribe filter] }
      else s
  | .unsubscribe id =>
      if s.tasks.any ObserverTask.isSending then s
      else
        { s with
          notifier := s.notifier.unsubscribe id
          readers := s.readers.map (Reader.unsubscribe id)
          order := s.order ++ [.unsubscribe id] }
  | .recv i => { s with readers := s.readers.modify i (Reader.recv s.notifier) }
  | .tryRecv i => { s with readers := s.readers.modify i (Reader.tryRecv s.notifier.channels) }

/-- The interleavings of calls of an observer and its readers. -/
def observing : Machine (ObserverRun ι) (ObserverStep ι) Unit where
  next := ObserverRun.next
  answer _ _ := ()

/-- The same subscriptions, removals and publications, each in one step. -/
def ObserverRun.feed (s : ObserverRun ι) : Feed ι :=
  feeding.run (Feed.start s.notifier.bufferSize) s.order

/-! ## A publication alone -/

/-- Sending on one channel after the other. -/
theorem run_send (s : ObserverRun ι) (front : List (ObserverTask ι)) (event : ChangeEvent ι)
    (left : List Nat) :
    observing.run { s with tasks := front ++ [.sending event left] }
        (List.replicate left.length (.send front.length)) =
      { s with
        notifier := { s.notifier with channels := sendAll s.notifier.channels left event }
        tasks := front ++ [.sending event []] } := by
  induction left generalizing s with
  | nil => rfl
  | cons sender left ih =>
      rw [List.length_cons, List.replicate_succ, run_cons]
      have hnext : observing.next { s with tasks := front ++ [.sending event (sender :: left)] }
          (.send front.length) =
          { s with
            notifier := s.notifier.sendOn sender event
            tasks := front ++ [.sending event left] } := by
        simp [observing, ObserverRun.next]
      rw [hnext]
      exact ih { s with notifier := s.notifier.sendOn sender event }

/-- A publication without other steps in between does what the notifier does in one. -/
theorem publish_alone (s : ObserverRun ι) (front : List (ObserverTask ι)) (event : ChangeEvent ι) :
    observing.run { s with tasks := front ++ [.ready event] }
        (.lock front.length :: List.replicate s.notifier.senders.length (.send front.length) ++
          [.finish front.length]) =
      { s with
        notifier := s.notifier.notify event
        tasks := front
        order := s.order ++ [.publish (.notify event)]
        finished := s.finished ++ event.number.toList } := by
  have hlock : observing.next { s with tasks := front ++ [.ready event] } (.lock front.length) =
      { s with
        tasks := front ++ [.sending event s.notifier.senders]
        order := s.order ++ [.publish (.notify event)] } := by
    simp [observing, ObserverRun.next]
  have herase : (front ++ [ObserverTask.sending event []]).eraseIdx front.length = front := by
    rw [List.eraseIdx_append_of_length_le (Nat.le_refl _), Nat.sub_self]
    exact List.append_nil front
  rw [List.cons_append, run_cons, hlock, run_append,
    run_send { s with order := s.order ++ [.publish (.notify event)] }]
  simp [observing, Machine.run, ObserverRun.next, ChangeNotifier.notify, herase]

/-- The first step of a call. -/
def ObserverCall.begin : ObserverCall ι → ObserverStep ι
  | .notifyLocal change now => .notifyLocal change now
  | .notifySync change peer now => .notifySync change peer now

/-- The steps of a call when this many others are under way. -/
def ObserverCall.steps (call : ObserverCall ι) (others senders : Nat) : List (ObserverStep ι) :=
  call.begin :: (.lock others :: List.replicate senders (.send others) ++ [.finish others])

/-- A call without other steps in between does what it does in one step. -/
theorem call_alone (s : ObserverRun ι) (call : ObserverCall ι) :
    (observing.run s (call.steps s.tasks.length s.notifier.senders.length)).notifier =
        call.publication.run s.notifier ∧
      (observing.run s (call.steps s.tasks.length s.notifier.senders.length)).tasks =
        s.tasks := by
  cases call with
  | notifyLocal change now =>
      have halone := publish_alone (s.next (.notifyLocal change now)) s.tasks
        (.new (.ofOperation change.operation) change s.notifier.incSequence.2 now)
      exact ⟨congrArg ObserverRun.notifier halone, (congrArg ObserverRun.tasks halone :)⟩
  | notifySync change peer now =>
      have halone := publish_alone s s.tasks (.fromSync change 0 peer now)
      exact ⟨congrArg ObserverRun.notifier halone, (congrArg ObserverRun.tasks halone :)⟩

/-! ## The invariant -/

/-- When the number of the first event was taken, the call of the second one had not ended. -/
def InOrder (before : Nat → List Nat) (first second : ChangeEvent ι) : Prop :=
  ∀ a ∈ first.number, ∀ b ∈ second.number, b ∉ before a

/-- The table is the one of the run in which every publication is one step.  What was sent on a
channel, with what is still going to be sent on it, is what was sent on it in that run, in an
order that respects which calls had ended before others began.  The numbers up to the counter are
those of the calls under way and of those that have ended. -/
structure Observed (s : ObserverRun ι) : Prop where
  used : s.feed.dropped = false
  subscribers : s.feed.notifier.subscribers = s.notifier.subscribers
  length : s.feed.notifier.channels.length = s.notifier.channels.length
  fills : ∀ (c : Nat) ch, s.notifier.channels[c]? = some ch →
    ∃ whole, s.feed.notifier.channels[c]? = some whole ∧
      (ch.sent ++ s.tasks.filterMap (ObserverTask.due c)).Perm whole.sent
  sending : ∀ event left, ObserverTask.sending event left ∈ s.tasks →
    left.Nodup ∧ left ⊆ s.notifier.senders
  numbers : (s.tasks.filterMap ObserverTask.number ++ s.finished).Perm
    (List.range' 1 s.notifier.sequence.toNat)
  published : (s.tasks.filterMap ObserverTask.waiting ++
    s.feed.published.filterMap ChangeEvent.number).Perm
      (List.range' 1 s.notifier.sequence.toNat)
  before : ∀ k, ∀ j ∈ s.before k, j < k ∧ j ∈ s.finished
  ordered : ∀ ch ∈ s.notifier.channels, ch.sent.Pairwise (InOrder s.before)
  readers : ∀ reader ∈ s.readers,
    ∃ ch, s.notifier.channels[reader.subscription.rx.channel]? = some ch ∧
      reader.subscription.rx.next ≤ ch.sent.length ∧
      reader.received.Sublist (ch.sent.take reader.subscription.rx.next)

theorem observed_start (bufferSize : Nat) : Observed (ObserverRun.start bufferSize : ObserverRun ι)
    where
  used := rfl
  subscribers := rfl
  length := rfl
  fills := by simp [ObserverRun.start, ChangeNotifier.new]
  sending := by simp [ObserverRun.start]
  numbers := .nil
  published := .nil
  before := by simp [ObserverRun.start]
  ordered := by simp [ObserverRun.start, ChangeNotifier.new]
  readers := by simp [ObserverRun.start]

variable {s : ObserverRun ι}

/-- The run in which every publication is one step keeps what runs of a notifier keep. -/
theorem reading_feed (s : ObserverRun ι) : Reading s.feed :=
  reading_run s.notifier.bufferSize s.order

theorem Observed.senders (h : Observed s) : s.feed.notifier.senders = s.notifier.senders := by
  rw [ChangeNotifier.senders, ChangeNotifier.senders, h.subscribers]

/-- Another call takes the lock. -/
theorem Observed.feed_concat (h : Observed s) {event : FeedEvent ι} {called : Feed ι}
    (hnext : s.feed.next event = if s.feed.dropped then s.feed else called) :
    feeding.run (Feed.start s.notifier.bufferSize) (s.order ++ [event]) = called := by
  have hrun : feeding.run (Feed.start s.notifier.bufferSize) (s.order ++ [event]) =
      s.feed.next event := run_append _ _ _
  rw [hrun, hnext, h.used]
  rfl

/-- An event that was sent was published. -/
theorem Observed.mem_published (h : Observed s) {c : Nat} {ch : Broadcast (ChangeEvent ι)}
    (hch : s.notifier.channels[c]? = some ch) {event : ChangeEvent ι} (hmem : event ∈ ch.sent) :
    event ∈ s.feed.published := by
  rcases h.fills c ch hch with ⟨whole, hwhole, hperm⟩
  have hin := hperm.subset (List.mem_append_left _ hmem)
  exact ((reading_feed s).channels whole (List.mem_of_getElem? hwhole)).2.subset hin

/-- Numbers are between one and the counter. -/
theorem Observed.number_le (h : Observed s) {event : ChangeEvent ι}
    (hmem : event ∈ s.feed.published) {k : Nat} (hk : event.number = some k) :
    k ≤ s.notifier.sequence.toNat := by
  have hin := h.published.subset
    (List.mem_append_right _ (List.mem_filterMap.mpr ⟨event, hmem, hk⟩))
  have hrange := List.mem_range'_1.mp hin
  omega

/-- A call under way has not ended. -/
theorem Observed.notMem_finished (h : Observed s) {task : ObserverTask ι} (hmem : task ∈ s.tasks)
    {k : Nat} (hk : task.number = some k) : k ∉ s.finished := by
  have hnodup := h.numbers.nodup_iff.mpr List.nodup_range'
  exact List.disjoint_of_nodup_append hnodup (List.mem_filterMap.mpr ⟨task, hmem, hk⟩)

/-! ## Steps -/

/-- One more number is taken, or one more event is published. -/
theorem perm_insert {α : Type} {front back whole : List α} (hperm : (front ++ back).Perm whole)
    (x : α) : (front ++ ([x] ++ back)).Perm (whole ++ [x]) := by
  refine (List.perm_append_comm.append_left front).trans ?_
  rw [← List.append_assoc]
  exact hperm.append_right [x]

/-- Nothing is due from a call that has not taken the lock. -/
theorem filterMap_due_ready (tasks : List (ObserverTask ι)) (event : ChangeEvent ι) (c : Nat) :
    (tasks ++ [ObserverTask.ready event]).filterMap (ObserverTask.due c) =
      tasks.filterMap (ObserverTask.due c) := by
  rw [List.filterMap_append, List.filterMap_cons_none rfl, List.filterMap_nil, List.append_nil]

theorem Observed.sending_ready (h : Observed s) (event : ChangeEvent ι) :
    ∀ event' left, ObserverTask.sending event' left ∈ s.tasks ++ [.ready event] →
      left.Nodup ∧ left ⊆ s.notifier.senders := by
  intro event' left hmem
  rcases List.mem_append.mp hmem with hold | hnew
  · exact h.sending event' left hold
  · simp at hnew

/-- A call about a local change takes a number. -/
theorem Observed.notifyLocal (h : Observed s) (hlt : s.notifier.sequence.toNat + 1 < 2 ^ 64)
    (change : Change) (now : UInt64) : Observed (s.next (.notifyLocal change now)) := by
  have hcount : (s.notifier.sequence + 1).toNat = s.notifier.sequence.toNat + 1 :=
    Checked.toNat_add_one hlt
  have hnumber : (ChangeEvent.new (.ofOperation change.operation) change
      (s.notifier.sequence + 1) now : ChangeEvent ι).number =
        some (s.notifier.sequence.toNat + 1) := congrArg some hcount
  have hrange : List.range' 1 (s.notifier.sequence + 1).toNat =
      List.range' 1 s.notifier.sequence.toNat ++ [s.notifier.sequence.toNat + 1] := by
    rw [hcount, List.range'_1_concat, Nat.add_comm]
  refine ⟨h.used, h.subscribers, h.length, ?_, ?_, ?_, ?_, ?_, ?_, h.readers⟩
  · intro c ch hch
    rw [ObserverRun.next, filterMap_due_ready]
    exact h.fills c ch hch
  · exact h.sending_ready _
  · simp only [ObserverRun.next, ChangeNotifier.incSequence, List.filterMap_append,
      List.filterMap_cons, List.filterMap_nil, ObserverTask.number, hnumber, hrange,
      List.append_assoc]
    exact perm_insert h.numbers _
  · simp only [ObserverRun.next, ChangeNotifier.incSequence, List.filterMap_append,
      List.filterMap_cons, List.filterMap_nil, ObserverTask.waiting, hnumber, hrange,
      List.append_assoc]
    exact perm_insert h.published _
  · intro k j hj
    simp only [ObserverRun.next, ChangeNotifier.incSequence, hcount] at hj
    by_cases hk : k = s.notifier.sequence.toNat + 1
    · subst hk
      rw [Function.update_self] at hj
      have hin := List.mem_range'_1.mp (h.numbers.subset (List.mem_append_right _ hj))
      exact ⟨by omega, hj⟩
    · rw [Function.update_of_ne hk] at hj
      exact h.before k j hj
  · intro ch hch
    rcases List.mem_iff_getElem?.mp hch with ⟨c, hc⟩
    refine (h.ordered ch hch).imp_of_mem fun {first second} hfirst _ horder a ha b hb => ?_
    have hle := h.number_le (h.mem_published hc hfirst) ha
    have hne : a ≠ s.notifier.sequence.toNat + 1 := by omega
    simp only [ObserverRun.next, ChangeNotifier.incSequence, hcount, Function.update_of_ne hne]
    exact horder a ha b hb

/-- A call about a synced change makes its event. -/
theorem Observed.notifySync (h : Observed s) (change : Change) (peer : ι) (now : UInt64) :
    Observed (s.next (.notifySync change peer now)) := by
  refine ⟨h.used, h.subscribers, h.length, ?_, ?_, ?_, ?_, h.before, h.ordered, h.readers⟩
  · intro c ch hch
    rw [ObserverRun.next, filterMap_due_ready]
    exact h.fills c ch hch
  · exact h.sending_ready _
  · rw [ObserverRun.next, List.filterMap_append, List.filterMap_cons_none rfl, List.filterMap_nil,
      List.append_nil]
    exact h.numbers
  · rw [ObserverRun.next, List.filterMap_append, List.filterMap_cons_none rfl, List.filterMap_nil,
      List.append_nil]
    exact h.published

/-- A task that goes on keeps its number. -/
theorem Observed.numbers_set (h : Observed s) {i : Nat} {task task' : ObserverTask ι}
    (htask : s.tasks[i]? = some task) (hsame : task'.number = task.number) :
    ((s.tasks.set i task').filterMap ObserverTask.number ++ s.finished).Perm
      (List.range' 1 s.notifier.sequence.toNat) := by
  have hset := Turns.filterMap_set_perm ObserverTask.number htask task'
  rw [hsame] at hset
  exact (((List.perm_append_left_iff _).mp hset).symm.append_right _).trans h.numbers

/-- A task that goes on has distinct channels left, all of them registered. -/
theorem Observed.sending_set (h : Observed s) {i : Nat} {event : ChangeEvent ι} {left : List Nat}
    (hleft : left.Nodup ∧ left ⊆ s.notifier.senders) :
    ∀ event' left', ObserverTask.sending event' left' ∈ s.tasks.set i (.sending event left) →
      left'.Nodup ∧ left' ⊆ s.notifier.senders := by
  intro event' left' hmem
  rcases List.mem_or_eq_of_mem_set hmem with hold | hnew
  · exact h.sending event' left' hold
  · injection hnew with _ hsame
    rwa [hsame]

/-- A call takes the lock. -/
theorem Observed.lock (h : Observed s) (i : Nat) : Observed (s.next (.lock i)) := by
  rw [ObserverRun.next]
  split
  · next event htask =>
      have hnodup : s.notifier.senders.Nodup := h.senders ▸ (reading_feed s).senders
      have hset : ∀ {α : Type} (stage : ObserverTask ι → Option α),
          ((stage (.sending event s.notifier.senders)).toList ++ s.tasks.filterMap stage).Perm
            ((stage (.ready event)).toList ++
              (s.tasks.set i (.sending event s.notifier.senders)).filterMap stage) :=
        fun stage => Turns.filterMap_set_perm stage htask _
      have hfeed : ObserverRun.feed { s with
          tasks := s.tasks.set i (.sending event s.notifier.senders)
          order := s.order ++ [.publish (.notify event)] } =
            s.feed.call (.publish (.notify event)) := h.feed_concat rfl
      constructor
      · rw [hfeed]
        exact h.used
      · rw [hfeed]
        exact h.subscribers
      · rw [hfeed]
        exact (sendAll_length _ _ _).trans h.length
      · intro c ch hch
        rcases h.fills c ch hch with ⟨whole, hwhole, hperm⟩
        have hdue := hset (ObserverTask.due c)
        rw [hfeed, Feed.call, Publication.run, ChangeNotifier.notify,
          sendAll_getElem? (reading_feed s).senders, hwhole, h.senders]
        by_cases hmem : c ∈ s.notifier.senders
        · simp only [ObserverTask.due, hmem, if_true] at hdue ⊢
          exact ⟨whole.send event, rfl, (hdue.symm.append_left ch.sent).trans
            (perm_insert hperm event)⟩
        · simp only [ObserverTask.due, hmem, if_false] at hdue ⊢
          exact ⟨whole, rfl, (hdue.symm.append_left ch.sent).trans hperm⟩
      · exact h.sending_set ⟨hnodup, fun _ hmem => hmem⟩
      · exact h.numbers_set htask rfl
      · have hleave := hset ObserverTask.waiting
        have hsingle : [event].filterMap ChangeEvent.number = event.number.toList := by
          cases hk : event.number <;> simp [hk]
        rw [hfeed, Feed.call, Publication.event, List.filterMap_append, hsingle]
        refine (List.perm_append_comm.append_left _).trans ?_
        refine (List.perm_append_comm_assoc _ _ _).trans ?_
        rw [← List.append_assoc]
        exact (hleave.symm.append_right _).trans h.published
      · exact h.before
      · exact h.ordered
      · exact h.readers
  · exact h
  · exact h

/-- The channels after a send. -/
theorem getElem?_sendOn (n : ChangeNotifier ι) (sender : Nat) (event : ChangeEvent ι) (c : Nat) :
    (n.sendOn sender event).channels[c]? =
      if sender = c then (n.channels[c]?).map (Broadcast.send · event) else n.channels[c]? := by
  rw [ChangeNotifier.sendOn, List.getElem?_modify]
  by_cases hc : sender = c
  · simp [hc]
  · simp [hc]

/-- A send takes an event from what is due on a channel. -/
theorem Observed.fills_send (h : Observed s) {i sender : Nat} {event : ChangeEvent ι}
    {left : List Nat} (htask : s.tasks[i]? = some (.sending event (sender :: left))) (c : Nat)
    {ch : Broadcast (ChangeEvent ι)}
    (hch : (s.notifier.sendOn sender event).channels[c]? = some ch) :
    ∃ whole, s.feed.notifier.channels[c]? = some whole ∧
      (ch.sent ++ (s.tasks.set i (.sending event left)).filterMap (ObserverTask.due c)).Perm
        whole.sent := by
  have hnodup := (h.sending event _ (List.mem_of_getElem? htask)).1
  rw [List.nodup_cons] at hnodup
  have hdue := Turns.filterMap_set_perm (ObserverTask.due c) htask (.sending event left)
  rw [getElem?_sendOn] at hch
  by_cases hc : sender = c
  · subst hc
    rw [if_pos rfl] at hch
    rcases Option.map_eq_some_iff.mp hch with ⟨old, hold, rfl⟩
    rcases h.fills sender old hold with ⟨whole, hwhole, hperm⟩
    simp only [ObserverTask.due, hnodup.1, if_false, List.mem_cons_self, if_true,
      Option.toList_none, Option.toList_some, List.nil_append] at hdue
    refine ⟨whole, hwhole, ?_⟩
    rw [Broadcast.send, List.append_assoc]
    exact (hdue.symm.append_left _).trans hperm
  · rw [if_neg hc] at hch
    rcases h.fills c ch hch with ⟨whole, hwhole, hperm⟩
    have hsame : ObserverTask.due c (.sending event (sender :: left)) =
        ObserverTask.due c (.sending event left) := by
      simp [ObserverTask.due, Ne.symm hc]
    rw [hsame] at hdue
    have hrest := (List.perm_append_left_iff _).mp hdue
    exact ⟨whole, hwhole, (hrest.symm.append_left _).trans hperm⟩

/-- The call that sends has not ended, and what had ended before has ended now. -/
theorem Observed.ordered_send (h : Observed s) {sender : Nat} {event : ChangeEvent ι}
    {left : List Nat} (hin : ObserverTask.sending event left ∈ s.tasks) :
    ∀ ch ∈ (s.notifier.sendOn sender event).channels, ch.sent.Pairwise (InOrder s.before) := by
  intro ch hch
  rcases List.mem_iff_getElem?.mp hch with ⟨c, hc⟩
  rw [getElem?_sendOn] at hc
  by_cases hsender : sender = c
  · rw [if_pos hsender] at hc
    rcases Option.map_eq_some_iff.mp hc with ⟨old, hold, rfl⟩
    rw [Broadcast.send, List.pairwise_append]
    refine ⟨h.ordered old (List.mem_of_getElem? hold), List.pairwise_singleton _ _, ?_⟩
    intro first _ second hsecond a _ b hb hended
    rw [List.mem_singleton.mp hsecond] at hb
    exact h.notMem_finished hin hb (h.before a b hended).2
  · rw [if_neg hsender] at hc
    exact h.ordered ch (List.mem_of_getElem? hc)

/-- A channel only grows. -/
theorem Observed.readers_send (h : Observed s) (sender : Nat) (event : ChangeEvent ι) :
    ∀ reader ∈ s.readers,
      ∃ ch, (s.notifier.sendOn sender event).channels[reader.subscription.rx.channel]? = some ch ∧
        reader.subscription.rx.next ≤ ch.sent.length ∧
        reader.received.Sublist (ch.sent.take reader.subscription.rx.next) := by
  intro reader hreader
  rcases h.readers reader hreader with ⟨ch, hch, hle, hreceived⟩
  rw [getElem?_sendOn, hch]
  by_cases hc : sender = reader.subscription.rx.channel
  · rw [if_pos hc]
    refine ⟨ch.send event, rfl, ?_, ?_⟩
    · rw [Broadcast.send, List.length_append]
      exact Nat.le_add_right_of_le hle
    · rw [Broadcast.send, List.take_append_of_le_length hle]
      exact hreceived
  · rw [if_neg hc]
    exact ⟨ch, rfl, hle, hreceived⟩

/-- A call sends its event on the next channel. -/
theorem Observed.send (h : Observed s) (i : Nat) : Observed (s.next (.send i)) := by
  rw [ObserverRun.next]
  split
  · next event sender left htask =>
      have hin := List.mem_of_getElem? htask
      rcases h.sending event _ hin with ⟨hnodup, hsenders⟩
      rw [List.nodup_cons] at hnodup
      have hwaiting := Turns.filterMap_set_perm ObserverTask.waiting htask (.sending event left)
      exact ⟨h.used, h.subscribers, h.length.trans (List.length_modify _ _ _).symm,
        fun c ch hch => h.fills_send htask c hch,
        h.sending_set ⟨hnodup.2, fun c hc => hsenders (List.mem_cons_of_mem _ hc)⟩,
        h.numbers_set htask rfl, (hwaiting.symm.append_right _).trans h.published, h.before,
        h.ordered_send hin, h.readers_send sender event⟩
  · exact h
  · exact h
  · exact h

/-- A call gives the lock back. -/
theorem Observed.finish (h : Observed s) (i : Nat) : Observed (s.next (.finish i)) := by
  rw [ObserverRun.next]
  split
  · next event htask =>
      have herase : ∀ {α : Type} (stage : ObserverTask ι → Option α),
          (s.tasks.filterMap stage).Perm ((stage (.sending event [])).toList ++
            (s.tasks.eraseIdx i).filterMap stage) :=
        fun stage => Turns.filterMap_eraseIdx_perm stage htask
      refine ⟨h.used, h.subscribers, h.length, ?_, ?_, ?_, ?_, ?_, h.ordered, h.readers⟩
      · intro c ch hch
        rcases h.fills c ch hch with ⟨whole, hwhole, hperm⟩
        have hdue := herase (ObserverTask.due c)
        simp only [ObserverTask.due, List.not_mem_nil, if_false] at hdue
        exact ⟨whole, hwhole, (hdue.symm.append_left _).trans hperm⟩
      · exact fun event' left' hmem => h.sending event' left' (List.mem_of_mem_eraseIdx hmem)
      · -- the number is now one of those that belong to calls that have ended
        refine (List.perm_append_comm.append_left _).trans ?_
        refine (List.perm_append_comm_assoc _ _ _).trans ?_
        rw [← List.append_assoc]
        exact ((herase ObserverTask.number).symm.append_right _).trans h.numbers
      · exact ((herase ObserverTask.waiting).symm.append_right _).trans h.published
      · intro k j hj
        rcases h.before k j hj with ⟨hlt, hended⟩
        exact ⟨hlt, List.mem_append_left _ hended⟩
  · exact h
  · exact h
  · exact h

/-- While no event is sent nothing is due on any channel. -/
theorem due_eq_nil (hquiet : ¬ s.tasks.any ObserverTask.isSending = true) (c : Nat) :
    s.tasks.filterMap (ObserverTask.due c) = [] := by
  rw [List.filterMap_eq_nil_iff]
  intro task hmem
  cases task with
  | ready event => rfl
  | sending event left => exact absurd (List.any_eq_true.mpr ⟨_, hmem, rfl⟩) hquiet

/-- A new channel is empty in both runs. -/
theorem Observed.fills_subscribe (h : Observed s)
    (hquiet : ¬ s.tasks.any ObserverTask.isSending = true) (filter : SubscriptionFilter) (c : Nat)
    {ch : Broadcast (ChangeEvent ι)}
    (hch : (s.notifier.subscribe filter).1.channels[c]? = some ch) :
    ∃ whole, (s.feed.notifier.subscribe filter).1.channels[c]? = some whole ∧
      (ch.sent ++ s.tasks.filterMap (ObserverTask.due c)).Perm whole.sent := by
  have hdue := due_eq_nil hquiet c
  simp only [ChangeNotifier.subscribe] at hch ⊢
  rcases Nat.lt_or_ge c s.notifier.channels.length with hold | hnew
  · rw [List.getElem?_append_left hold] at hch
    rw [List.getElem?_append_left (h.length ▸ hold)]
    exact h.fills c ch hch
  · rw [List.getElem?_append_right hnew] at hch
    rw [List.getElem?_append_right (h.length ▸ hnew), h.length, hdue]
    rcases List.getElem?_eq_some_iff.mp hch with ⟨hlt, rfl⟩
    refine ⟨.new s.feed.notifier.bufferSize, ?_, ?_⟩
    · rw [List.length_singleton] at hlt
      rw [Nat.lt_one_iff.mp hlt]
      rfl
    · rw [List.getElem_singleton]
      exact .nil

/-- A subscription is made, where this is possible. -/
theorem Observed.subscribe (h : Observed s) (filter : SubscriptionFilter) :
    Observed (s.next (.subscribe filter)) := by
  rw [ObserverRun.next]
  split_ifs with hsending hopens
  · exact h
  · have hfeed : ObserverRun.feed { s with
        notifier := (s.notifier.subscribe filter).1
        readers := s.readers ++ [⟨(s.notifier.subscribe filter).2, false, []⟩]
        order := s.order ++ [.subscribe filter] } = s.feed.subscribe filter := by
      have hfeedOpens : s.feed.notifier.Opens := by
        rw [ChangeNotifier.Opens, ObserverRun.feed, bufferSize_run]
        exact hopens
      have hcall : s.feed.call (.subscribe filter) = s.feed.subscribe filter :=
        if_pos hfeedOpens
      rw [← hcall]
      exact h.feed_concat rfl
    refine ⟨?_, ?_, ?_, ?_, ?_, h.numbers, ?_, h.before, ?_, ?_⟩
    · rw [hfeed]
      exact h.used
    · rw [hfeed]
      simp only [Feed.subscribe, ChangeNotifier.subscribers_subscribe, ChangeNotifier.nextId,
        ChangeNotifier.subscriberCount, h.subscribers, h.length]
    · rw [hfeed]
      simp only [Feed.subscribe, ChangeNotifier.subscribe, List.length_append, h.length,
        List.length_singleton]
    · rw [hfeed]
      exact fun c ch hch => h.fills_subscribe hsending filter c hch
    · exact fun event left hmem => absurd (List.any_eq_true.mpr ⟨_, hmem, rfl⟩) hsending
    · rw [hfeed]
      exact h.published
    · intro ch hch
      rcases List.mem_append.mp hch with hold | hnew
      · exact h.ordered ch hold
      · rw [List.mem_singleton.mp hnew]
        exact .nil
    · intro reader hreader
      rcases List.mem_append.mp hreader with hold | hnew
      · rcases h.readers reader hold with ⟨ch, hch, hrest⟩
        refine ⟨ch, ?_, hrest⟩
        exact (List.getElem?_append_left (List.getElem?_eq_some_iff.mp hch).1).trans hch
      · rw [List.mem_singleton.mp hnew]
        exact ⟨.new s.notifier.bufferSize, List.getElem?_concat_length, Nat.le_refl 0,
          List.nil_sublist _⟩
  · exact h

/-- A subscription is removed. -/
theorem Observed.unsubscribe (h : Observed s) (id : UInt64) :
    Observed (s.next (.unsubscribe id)) := by
  rw [ObserverRun.next]
  split
  · exact h
  · next hquiet =>
      have hfeed : ObserverRun.feed { s with
          notifier := s.notifier.unsubscribe id
          readers := s.readers.map (Reader.unsubscribe id)
          order := s.order ++ [.unsubscribe id] } = s.feed.call (.unsubscribe id) :=
        h.feed_concat rfl
      refine ⟨?_, ?_, ?_, ?_, ?_, h.numbers, ?_, h.before, h.ordered, ?_⟩
      · rw [hfeed]
        exact h.used
      · rw [hfeed]
        simp only [Feed.call, ChangeNotifier.unsubscribe, h.subscribers]
      · rw [hfeed]
        exact h.length
      · rw [hfeed]
        exact h.fills
      · exact fun event left hmem =>
          absurd (List.any_eq_true.mpr ⟨_, hmem, rfl⟩) hquiet
      · rw [hfeed]
        exact h.published
      · intro reader' hreader'
        rcases List.mem_map.mp hreader' with ⟨reader, hreader, rfl⟩
        exact h.readers reader hreader

/-- A reader tries to receive. -/
theorem Observed.tryRecv (h : Observed s) (i : Nat) : Observed (s.next (.tryRecv i)) := by
  refine ⟨h.used, h.subscribers, h.length, h.fills, h.sending, h.numbers, h.published, h.before,
    h.ordered, ?_⟩
  intro reader' hreader'
  rcases List.mem_iff_getElem?.mp hreader' with ⟨k, hk⟩
  rw [ObserverRun.next, List.getElem?_modify] at hk
  rcases Option.map_eq_some_iff.mp hk with ⟨reader, hreader, rfl⟩
  rcases h.readers reader (List.mem_of_getElem? hreader) with ⟨ch, hch, hle, hreceived⟩
  split
  · rcases Broadcast.sublist_recv hreceived hle with ⟨hsublist, hplace⟩
    simp only [Reader.tryRecv, Subscription.tryRecv, hch]
    exact ⟨ch, hch, hplace, hsublist⟩
  · exact ⟨ch, hch, hle, hreceived⟩

/-- Every step, while the counter does not wrap around. -/
theorem Observed.next (h : Observed s) (hlt : s.notifier.sequence.toNat + 1 < 2 ^ 64)
    (step : ObserverStep ι) : Observed (s.next step) := by
  cases step with
  | notifyLocal change now => exact h.notifyLocal hlt change now
  | notifySync change peer now => exact h.notifySync change peer now
  | lock i => exact h.lock i
  | send i => exact h.send i
  | finish i => exact h.finish i
  | subscribe filter => exact h.subscribe filter
  | unsubscribe id => exact h.unsubscribe id
  | recv i =>
      have hsame : s.next (.recv i) = s.next (.tryRecv i) := by
        rw [ObserverRun.next, ObserverRun.next, funext (Reader.recv_eq s.notifier)]
      rw [hsame]
      exact h.tryRecv i
  | tryRecv i => exact h.tryRecv i

/-- A step takes at most one number. -/
theorem sequence_next_le (hlt : s.notifier.sequence.toNat + 1 < 2 ^ 64) (step : ObserverStep ι) :
    (s.next step).notifier.sequence.toNat ≤ s.notifier.sequence.toNat + 1 := by
  cases step with
  | notifyLocal change now => exact Nat.le_of_eq (Checked.toNat_add_one hlt)
  | notifySync change peer now => exact Nat.le_succ _
  | lock i => rw [ObserverRun.next]; split <;> exact Nat.le_succ _
  | send i => rw [ObserverRun.next]; split <;> exact Nat.le_succ _
  | finish i => rw [ObserverRun.next]; split <;> exact Nat.le_succ _
  | subscribe filter => rw [ObserverRun.next]; split_ifs <;> exact Nat.le_succ _
  | unsubscribe id => rw [ObserverRun.next]; split <;> exact Nat.le_succ _
  | recv i => exact Nat.le_succ _
  | tryRecv i => exact Nat.le_succ _

theorem Observed.run (h : Observed s) {steps : List (ObserverStep ι)}
    (hlt : s.notifier.sequence.toNat + steps.length < 2 ^ 64) :
    Observed (observing.run s steps) := by
  induction steps generalizing s with
  | nil => exact h
  | cons step steps ih =>
      rw [List.length_cons] at hlt
      have hstep : s.notifier.sequence.toNat + 1 < 2 ^ 64 := by omega
      have hle : (observing.next s step).notifier.sequence.toNat ≤
          s.notifier.sequence.toNat + 1 := sequence_next_le hstep step
      exact ih (h.next hstep step) (by omega)

/-! ## What subscribers get -/

/-- What is promised of a notifier whose calls overlap.  Every number up to the counter belongs
to one call that is under way or has ended; a call that had ended when another one took its
number has the smaller one; no subscriber gets a number twice, or gets the events of two such
calls the other way round; and everything sent on a channel, with what is still going to be sent
on it, is everything that is sent on it when each publication is one step, once each. -/
structure AtOnce (s : ObserverRun ι) : Prop where
  numbers : (s.tasks.filterMap ObserverTask.number ++ s.finished).Perm
    (List.range' 1 s.notifier.sequence.toNat)
  smaller : ∀ k, ∀ j ∈ s.before k, j < k
  received : ∀ reader ∈ s.readers, (reader.received.filterMap ChangeEvent.number).Nodup ∧
    reader.received.Pairwise (InOrder s.before)
  subscribers : s.feed.notifier.subscribers = s.notifier.subscribers
  delivered : ∀ (c : Nat) ch, s.notifier.channels[c]? = some ch →
    ∃ whole, s.feed.notifier.channels[c]? = some whole ∧
      (ch.sent ++ s.tasks.filterMap (ObserverTask.due c)).Perm whole.sent

/-- No number is sent twice on a channel. -/
theorem Observed.nodup_sent (h : Observed s) {c : Nat} {ch : Broadcast (ChangeEvent ι)}
    (hch : s.notifier.channels[c]? = some ch) :
    (ch.sent.filterMap ChangeEvent.number).Nodup := by
  rcases h.fills c ch hch with ⟨whole, hwhole, hperm⟩
  have hpublished := ((reading_feed s).channels whole (List.mem_of_getElem? hwhole)).2
  have hnodup := (h.published.nodup_iff.mpr List.nodup_range').of_append_right
  have hall := (hperm.filterMap ChangeEvent.number).nodup_iff.mpr
    (hnodup.sublist (hpublished.filterMap ChangeEvent.number))
  rw [List.filterMap_append] at hall
  exact hall.of_append_left

theorem Observed.atOnce (h : Observed s) : AtOnce s where
  numbers := h.numbers
  smaller := fun k j hj => (h.before k j hj).1
  received := by
    intro reader hreader
    rcases h.readers reader hreader with ⟨ch, hch, _, hreceived⟩
    have hsent := hreceived.trans (List.take_sublist _ _)
    exact ⟨(h.nodup_sent hch).sublist (hsent.filterMap _),
      (h.ordered ch (List.mem_of_getElem? hch)).sublist hsent⟩
  subscribers := h.subscribers
  delivered := h.fills

/-- For every buffer size, the promise holds after any interleaving of the steps of any number of
calls with subscribing, unsubscribing and receiving. -/
theorem observers_at_once (bufferSize : Nat) (steps : List (ObserverStep ι))
    (hlt : steps.length < 2 ^ 64) :
    AtOnce (observing.run (ObserverRun.start bufferSize) steps) := by
  refine ((observed_start bufferSize).run ?_).atOnce
  rwa [ObserverRun.start, ChangeNotifier.new, UInt64.toNat_zero, Nat.zero_add]

/-- Two calls that overlap. -/
def overlappingCalls : List (ObserverStep Nat) :=
  [.subscribe .everything, .notifyLocal sampleChange 5, .notifyLocal sampleChange 6, .lock 1,
    .send 1, .finish 1, .lock 0, .send 0, .finish 0, .recv 0, .recv 0]

theorem observers_at_once_sample :
    AtOnce (observing.run (ObserverRun.start 4) overlappingCalls) :=
  observers_at_once 4 overlappingCalls (by decide)

/-- The numbers of calls that overlap may come in either order. -/
example : (observing.run (ObserverRun.start 4) overlappingCalls).readers.map
    (fun reader => reader.received.map ChangeEvent.sequence) = [[2, 1]] := by
  decide

end Notify

end IrohSync
