import IrohSync.Lib.Checked
import IrohSync.Notify.Feed

/-!
# The order of events

An observer numbers the events of local changes one by one.  The event of a synced change
has the number zero, whatever came before it.

Main results:

- Theorem {lit}`pairwise_numbers_iff`: which calls get increasing numbers.
- Theorem {lit}`increasing_iff`: after which calls every subscriber has received events with
  increasing numbers only.
-/

namespace IrohSync

namespace Notify

open Machine

variable {ι : Type}

/-! ## Calls of the observer -/

/-- A call of the observer about a change. -/
inductive ObserverCall (ι : Type) where
  | notifyLocal (change : Change) (now : UInt64)
  | notifySync (change : Change) (peer : ι) (now : UInt64)

/-- What a call publishes. -/
def ObserverCall.publication : ObserverCall ι → Publication ι
  | .notifyLocal change now => .notifyLocal change now
  | .notifySync change peer now => .notifySync change peer now

/-- The call is about a local change. -/
def ObserverCall.isLocal : ObserverCall ι → Bool
  | .notifyLocal _ _ => true
  | .notifySync _ _ _ => false

/-- The number of the event that a call publishes. -/
def ObserverCall.number (n : UInt64) : ObserverCall ι → UInt64
  | .notifyLocal _ _ => n + 1
  | .notifySync _ _ _ => 0

/-- The counter after a call. -/
def ObserverCall.counter (n : UInt64) : ObserverCall ι → UInt64
  | .notifyLocal _ _ => n + 1
  | .notifySync _ _ _ => n

/-- The numbers of the events that calls publish, from a counter on. -/
def numbers : UInt64 → List (ObserverCall ι) → List UInt64
  | _, [] => []
  | n, call :: calls => call.number n :: numbers (call.counter n) calls

/-- A new observer, with its notifier. -/
def Feed.observer : Feed ι :=
  .start 100

/-- The publication that an event is. -/
def FeedEvent.publication : FeedEvent ι → Option (Publication ι)
  | .publish publication => some publication
  | _ => none

/-- The publications of a run. -/
def publications (events : List (FeedEvent ι)) : List (Publication ι) :=
  events.filterMap FeedEvent.publication

/-- The numbers of the events that were received increase. -/
def Reader.Increasing (reader : Reader ι) : Prop :=
  (reader.received.map ChangeEvent.sequence).Pairwise (· < ·)

instance (reader : Reader ι) : Decidable reader.Increasing :=
  inferInstanceAs (Decidable ((reader.received.map ChangeEvent.sequence).Pairwise (· < ·)))

/-- No call but the first is about a synced change, and the counter does not wrap around. -/
def NumbersOnce (calls : List (ObserverCall ι)) : Prop :=
  (∀ call ∈ calls.tail, call.isLocal = true) ∧ calls.countP ObserverCall.isLocal < 2 ^ 64

/-! ## The numbers -/

theorem ObserverCall.sequence_event (call : ObserverCall ι) (n : ChangeNotifier ι) :
    (call.publication.event n).sequence = call.number n.sequence := by
  cases call with
  | notifyLocal change now => rfl
  | notifySync change peer now => rfl

theorem ObserverCall.sequence_run (call : ObserverCall ι) (n : ChangeNotifier ι) :
    (call.publication.run n).sequence = call.counter n.sequence := by
  cases call with
  | notifyLocal change now => rfl
  | notifySync change peer now => rfl

/-- The numbers increase from the counter on exactly if all changes are local and the counter
does not wrap around. -/
theorem lt_numbers_iff (n : UInt64) (calls : List (ObserverCall ι)) :
    ((∀ x ∈ numbers n calls, n < x) ∧ (numbers n calls).Pairwise (· < ·)) ↔
      (∀ call ∈ calls, call.isLocal = true) ∧ n.toNat + calls.length < 2 ^ 64 := by
  induction calls generalizing n with
  | nil => simpa [numbers] using n.toNat_lt
  | cons call calls ih =>
      rw [numbers, List.forall_mem_cons, List.pairwise_cons, List.forall_mem_cons,
        List.length_cons]
      cases call with
      | notifyLocal change now =>
          constructor
          · intro h
            rcases (ih (n + 1)).mp h.2 with ⟨hlocal, hcount⟩
            rw [Checked.toNat_add_one ((Checked.lt_add_one_iff n).mp h.1.1)] at hcount
            exact ⟨⟨rfl, hlocal⟩, by omega⟩
          · intro h
            have hlt : n.toNat + 1 < 2 ^ 64 := by omega
            have hrest := (ih (n + 1)).mpr ⟨h.1.2, by rw [Checked.toNat_add_one hlt]; omega⟩
            have hfirst := (Checked.lt_add_one_iff n).mpr hlt
            exact ⟨⟨hfirst, fun x hx => UInt64.lt_trans hfirst (hrest.1 x hx)⟩, hrest⟩
      | notifySync change peer now =>
          apply iff_of_false
          · exact fun h => UInt64.not_lt_zero h.1.1
          · exact fun h => Bool.false_ne_true h.1.1

/-- The numbers of a new observer increase exactly if all changes after the first one are
local and the counter does not wrap around. -/
theorem pairwise_numbers_iff (calls : List (ObserverCall ι)) :
    (numbers 0 calls).Pairwise (· < ·) ↔ NumbersOnce calls := by
  unfold NumbersOnce
  cases calls with
  | nil => simp [numbers]
  | cons call calls =>
      have hcount : (∀ call ∈ calls, call.isLocal = true) →
          calls.countP ObserverCall.isLocal = calls.length := List.countP_eq_length.mpr
      rw [numbers, List.pairwise_cons, List.tail_cons, List.countP_cons]
      cases call with
      | notifyLocal change now =>
          have hrest := lt_numbers_iff 1 calls
          rw [UInt64.toNat_one] at hrest
          refine hrest.trans (and_congr_right fun hlocal => ?_)
          rw [hcount hlocal]
          simp [ObserverCall.isLocal]
          omega
      | notifySync change peer now =>
          have hrest := lt_numbers_iff 0 calls
          rw [UInt64.toNat_zero] at hrest
          refine hrest.trans (and_congr_right fun hlocal => ?_)
          rw [hcount hlocal]
          simp [ObserverCall.isLocal]

/-! ## What is published -/

variable {s : Feed ι}

/-- Once the notifier was dropped nothing is published. -/
theorem published_dropped (hdropped : s.dropped = true) (events : List (FeedEvent ι)) :
    (feeding.run s events).published = s.published := by
  have hrun := run_invariant (M := feeding)
    (I := fun t : Feed ι => t.dropped = true ∧ t.published = s.published)
    (fun t event h _ => ?_) ⟨hdropped, rfl⟩ (along_trivial s events)
  · exact hrun.2
  · cases event <;> simp [feeding, Feed.next, h.1, h.2]

/-- An event that publishes nothing leaves the counter as it is. -/
theorem next_of_publication_none {event : FeedEvent ι} (hnone : event.publication = none) :
    (s.next event).published = s.published ∧
      (s.next event).notifier.sequence = s.notifier.sequence := by
  cases event with
  | publish publication => contradiction
  | recv i => exact ⟨rfl, rfl⟩
  | tryRecv i => exact ⟨rfl, rfl⟩
  | subscribe filter =>
      simp only [Feed.next, Feed.call]
      split_ifs
      · exact ⟨rfl, rfl⟩
      · exact ⟨rfl, rfl⟩
      · exact ⟨rfl, rfl⟩
  | _ =>
      simp only [Feed.next]
      split
      · exact ⟨rfl, rfl⟩
      · exact ⟨rfl, rfl⟩

/-- A call publishes its event, and the counter moves on. -/
theorem next_publish (hlive : s.dropped = false) (call : ObserverCall ι) :
    ((s.next (.publish call.publication)).published.map ChangeEvent.sequence =
      s.published.map ChangeEvent.sequence ++ [call.number s.notifier.sequence]) ∧
      (s.next (.publish call.publication)).notifier.sequence =
        call.counter s.notifier.sequence := by
  simp only [Feed.next, hlive, Feed.call, ← call.sequence_event, ← call.sequence_run]
  simp

/-- Everything published in a run has the number of its call. -/
theorem sublist_numbers {calls : List (ObserverCall ι)} {events : List (FeedEvent ι)}
    (hcalls : publications events = calls.map ObserverCall.publication) :
    ((feeding.run s events).published.map ChangeEvent.sequence).Sublist
      (s.published.map ChangeEvent.sequence ++ numbers s.notifier.sequence calls) := by
  induction events generalizing s calls with
  | nil => exact List.sublist_append_left _ _
  | cons event events ih =>
      by_cases hdropped : s.dropped = true
      · rw [published_dropped hdropped]
        exact List.sublist_append_left _ _
      · cases hevent : event.publication with
        | none =>
            rcases next_of_publication_none (s := s) hevent with ⟨hpublished, hsequence⟩
            rw [publications, List.filterMap_cons_none hevent] at hcalls
            rw [run_cons, ← hpublished, ← hsequence]
            exact ih hcalls
        | some publication =>
            rw [publications, List.filterMap_cons_some hevent] at hcalls
            rcases List.map_eq_cons_iff.mp hcalls.symm with ⟨call, rest, rfl, rfl, hrest⟩
            have hpublish : event = .publish call.publication := by
              cases event with
              | publish publication => exact congrArg _ (Option.some.inj hevent)
              | _ => contradiction
            rcases next_publish (eq_false_of_ne_true hdropped) call with
              ⟨hpublished, hsequence⟩
            rw [hpublish, run_cons, numbers, List.append_cons, ← hpublished, ← hsequence]
            exact ih hrest.symm

/-! ## A subscriber that follows -/

/-- After every call the first subscription receives. -/
def follow (calls : List (ObserverCall ι)) : List (FeedEvent ι) :=
  calls.flatMap fun call => [.publish call.publication, .recv 0]

/-- There is one reader, it is registered, and it has received everything published. -/
structure Following (s : Feed ι) (reader : Reader ι) : Prop where
  live : s.dropped = false
  readers : s.readers = [reader]
  senders : s.notifier.senders = [reader.subscription.rx.channel]
  received : reader.received = s.published
  channel : ∃ ch, s.notifier.channels[reader.subscription.rx.channel]? = some ch ∧
    0 < ch.capacity ∧ reader.subscription.rx.next = ch.sent.length

theorem publications_follow (calls : List (ObserverCall ι)) :
    publications (follow calls) = calls.map ObserverCall.publication := by
  induction calls with
  | nil => rfl
  | cons call calls ih =>
      rw [List.map_cons, ← ih]
      rfl

/-- A call, and the event that is received. -/
theorem Following.next {reader : Reader ι} (h : Following s reader) (call : ObserverCall ι) :
    ∃ reader', Following ((s.next (.publish call.publication)).next (.recv 0)) reader' := by
  rcases h.channel with ⟨ch, hch, hcapacity, hnext⟩
  have hpublish : s.next (.publish call.publication) = s.call (.publish call.publication) := by
    simp [Feed.next, h.live]
  have hsenders := (call.publication.senders_run s.notifier).trans h.senders
  have hsent : (call.publication.run s.notifier).channels[reader.subscription.rx.channel]? =
      some (ch.send (call.publication.event s.notifier)) := by
    have hnodup : s.notifier.senders.Nodup := h.senders ▸ List.nodup_singleton _
    rw [(call.publication.run_eq s.notifier).1, sendAll_getElem? hnodup, h.senders,
      if_pos List.mem_cons_self, hch]
    rfl
  have hrecv : reader.recv (call.publication.run s.notifier) =
      { reader with
        subscription :=
          { reader.subscription with
            rx := ⟨reader.subscription.rx.channel, ch.sent.length + 1⟩ }
        received := reader.received ++ [call.publication.event s.notifier] } := by
    rw [Reader.recv_eq, Reader.tryRecv, Subscription.tryRecv, hsent]
    simp only [hnext, Broadcast.recv_send hcapacity]
    rfl
  refine ⟨reader.recv (call.publication.run s.notifier), ?_⟩
  rw [hpublish]
  constructor
  · exact h.live
  · simp [Feed.next, Feed.call, h.readers]
  · rw [hrecv]
    exact hsenders
  · rw [hrecv, h.received]
    rfl
  · rw [hrecv]
    refine ⟨_, hsent, hcapacity, ?_⟩
    rw [Broadcast.send, List.length_append]
    rfl

/-- All calls, and all that is received. -/
theorem Following.run {reader : Reader ι} (h : Following s reader)
    (calls : List (ObserverCall ι)) :
    ∃ reader' ∈ (feeding.run s (follow calls)).readers,
      reader'.received.map ChangeEvent.sequence =
        s.published.map ChangeEvent.sequence ++ numbers s.notifier.sequence calls := by
  induction calls generalizing s reader with
  | nil =>
      refine ⟨reader, ?_, ?_⟩
      · simp [follow, h.readers]
      · rw [h.received, numbers, List.append_nil]
  | cons call calls ih =>
      rcases h.next call with ⟨reader', hnext⟩
      rcases next_publish h.live call with ⟨hpublished, hsequence⟩
      rw [numbers, List.append_cons, ← hpublished, ← hsequence]
      exact ih hnext

/-! ## What subscribers receive -/

/-- For all calls of an observer: in every run that makes these calls, with any subscriptions,
removals and receptions among them, every subscriber has received events with increasing
numbers only, if and only if no call but the first is about a synced change and the counter
does not wrap around. -/
theorem increasing_iff (calls : List (ObserverCall ι)) :
    (∀ events : List (FeedEvent ι),
      publications events = calls.map ObserverCall.publication →
        ∀ reader ∈ (feeding.run Feed.observer events).readers, reader.Increasing) ↔
      NumbersOnce calls := by
  rw [← pairwise_numbers_iff]
  constructor
  · intro hruns
    have hstart : Following (Feed.observer.next (.subscribe .everything) : Feed ι)
        ⟨⟨1, .everything, ⟨0, 0⟩⟩, false, []⟩ :=
      ⟨rfl, rfl, rfl, rfl, .new 100, rfl, Broadcast.slots_pos 100, rfl⟩
    rcases hstart.run calls with ⟨reader, hreader, hreceived⟩
    have hincreasing := hruns (.subscribe .everything :: follow calls)
      (publications_follow calls) reader hreader
    rw [Reader.Increasing, hreceived] at hincreasing
    exact hincreasing
  · intro hnumbers events hcalls reader hreader
    have hpublished := sublist_numbers (s := Feed.observer) hcalls
    have hreceived := (reading_run 100 events).received_sublist hreader
    exact hnumbers.sublist ((hreceived.map _).trans hpublished)

/-- A local change and a synced one: the second event has number zero. -/
theorem not_increasing_synced :
    ¬ ∀ reader ∈ (feeding.run (Feed.observer : Feed Nat)
        [.subscribe .everything, .publish (.notifyLocal sampleChange 5), .recv 0,
          .publish (.notifySync sampleChange 7 6), .recv 0]).readers,
      reader.Increasing := by
  decide

end Notify

end IrohSync
