import IrohSync.Notify.Delivery

/-!
# Waiting for events

A consumer waits for one event after another until receiving returns none.  What the
channel reports then, that it is closed or that the receiver has lagged, is dropped, and the
two look alike.

Main results:

- Theorem {lit}`Reading.next`: what any step of a notifier and its readers keeps.
- Theorem {lit}`Reading.received_sublist`: readers receive published events, in their order.
- Theorem {lit}`ends_at_end_iff`: in which runs receiving returns none only to a reader that
  was removed, or after the notifier was dropped.
-/

namespace IrohSync

namespace Notify

open Machine

variable {ι : Type}

/-! ## Readers -/

/-- A subscription, whether it was removed since, and what it has received. -/
structure Reader (ι : Type) where
  subscription : Subscription
  removed : Bool
  received : List (ChangeEvent ι)

/-- The identifier of a subscription was unsubscribed. -/
def Reader.unsubscribe (id : UInt64) (reader : Reader ι) : Reader ι :=
  { reader with removed := reader.removed || reader.subscription.id == id }

/-- A reader receives, or waits. -/
def Reader.recv (n : ChangeNotifier ι) (reader : Reader ι) : Reader ι :=
  let (subscription, outcome) := reader.subscription.recv n
  { reader with
    subscription := subscription
    received := reader.received ++ outcome.join.toList }

/-- A reader tries to receive. -/
def Reader.tryRecv (channels : List (Broadcast (ChangeEvent ι))) (reader : Reader ι) :
    Reader ι :=
  let (subscription, event) := reader.subscription.tryRecv channels
  { reader with
    subscription := subscription
    received := reader.received ++ event.toList }

/-- A notifier, its readers and the events published on it. -/
structure Feed (ι : Type) where
  notifier : ChangeNotifier ι
  dropped : Bool
  readers : List (Reader ι)
  published : List (ChangeEvent ι)

/-- A new notifier. -/
def Feed.start (bufferSize : Nat) : Feed ι where
  notifier := .new bufferSize
  dropped := false
  readers := []
  published := []

/-- A call of the notifier or of a reader, or the end of the notifier. -/
inductive FeedEvent (ι : Type) where
  | subscribe (filter : SubscriptionFilter)
  | unsubscribe (id : UInt64)
  | publish (publication : Publication ι)
  | recv (i : Nat)
  | tryRecv (i : Nat)
  | drop

/-- The state after a subscription. -/
def Feed.subscribe (s : Feed ι) (filter : SubscriptionFilter) : Feed ι :=
  { s with
    notifier := (s.notifier.subscribe filter).1
    readers := s.readers ++ [⟨(s.notifier.subscribe filter).2, false, []⟩] }

/-- The state after a call of the notifier. -/
def Feed.call (s : Feed ι) : FeedEvent ι → Feed ι
  | .subscribe filter => if s.notifier.Opens then s.subscribe filter else s
  | .unsubscribe id =>
      { s with
        notifier := s.notifier.unsubscribe id
        readers := s.readers.map (Reader.unsubscribe id) }
  | .publish publication =>
      { s with
        notifier := publication.run s.notifier
        published := s.published ++ [publication.event s.notifier] }
  | .drop => { s with notifier := s.notifier.drop, dropped := true }
  | .recv _ | .tryRecv _ => s

/-- The state after an event.  There are no calls of a notifier that was dropped. -/
def Feed.next (s : Feed ι) : FeedEvent ι → Feed ι
  | .recv i => { s with readers := s.readers.modify i (Reader.recv s.notifier) }
  | .tryRecv i => { s with readers := s.readers.modify i (Reader.tryRecv s.notifier.channels) }
  | event => if s.dropped then s else s.call event

/-- The runs of a notifier and its readers. -/
def feeding : Machine (Feed ι) (FeedEvent ι) Unit where
  next := Feed.next
  answer _ _ := ()

/-- Receiving returns none only if the subscription was removed or the notifier dropped. -/
def EndsAtEnd (s : Feed ι) : FeedEvent ι → Prop
  | .recv i => ∀ reader ∈ s.readers[i]?, (reader.subscription.recv s.notifier).2 = some none →
      reader.removed = true ∨ s.dropped = true
  | _ => True

instance [DecidableEq ι] (s : Feed ι) : ∀ event, Decidable (EndsAtEnd s event)
  | .recv i => inferInstanceAs (Decidable (∀ reader ∈ s.readers[i]?,
      (reader.subscription.recv s.notifier).2 = some none →
        reader.removed = true ∨ s.dropped = true))
  | .subscribe _ | .unsubscribe _ | .publish _ | .tryRecv _ | .drop => isTrue trivial

/-- A subscription that receives was removed, or the notifier was dropped; or it is no further
behind than the channel keeps values, and it is still registered or has something to read. -/
def InReach (s : Feed ι) : FeedEvent ι → Prop
  | .recv i => ∀ reader ∈ s.readers[i]?, (reader.removed = true ∨ s.dropped = true) ∨
      (reader.subscription.unread s.notifier.channels).length ≤
          Broadcast.slots s.notifier.bufferSize ∧
        (reader.subscription.rx.channel ∈ s.notifier.senders ∨
          reader.subscription.unread s.notifier.channels ≠ [])
  | _ => True

/-! ## The invariant -/

/-- No two subscribers share a channel, every channel has the buffer that was asked for and carries
published events in order, and so does what a reader received from it. -/
structure Reading (s : Feed ι) : Prop where
  senders : s.notifier.senders.Nodup
  created : ∀ sender ∈ s.notifier.senders, sender < s.notifier.channels.length
  channels : ∀ ch ∈ s.notifier.channels,
    ch.capacity = Broadcast.slots s.notifier.bufferSize ∧ ch.sent.Sublist s.published
  readers : ∀ reader ∈ s.readers,
    ∃ ch, s.notifier.channels[reader.subscription.rx.channel]? = some ch ∧
      reader.subscription.rx.next ≤ ch.sent.length ∧
      reader.received.Sublist (ch.sent.take reader.subscription.rx.next)

theorem reading_start (bufferSize : Nat) : Reading (Feed.start bufferSize : Feed ι) where
  senders := List.nodup_nil
  created := by simp [Feed.start, ChangeNotifier.new, ChangeNotifier.senders]
  channels := by simp [Feed.start, ChangeNotifier.new]
  readers := by simp [Feed.start]

variable {s : Feed ι}

/-- A new subscription has a new channel. -/
theorem Reading.subscribe (h : Reading s) (filter : SubscriptionFilter) :
    Reading (s.subscribe filter) := by
  rcases ChangeNotifier.senders_nodup_subscribe h.senders h.created filter with
    ⟨hnodup, hcreated⟩
  refine ⟨hnodup, hcreated, ?_, ?_⟩
  · intro ch hch
    rcases List.mem_append.mp hch with hold | hnew
    · exact h.channels ch hold
    · rw [List.mem_singleton.mp hnew]
      exact ⟨rfl, List.nil_sublist _⟩
  · intro reader hreader
    rcases List.mem_append.mp hreader with hold | hnew
    · rcases h.readers reader hold with ⟨ch, hch, hrest⟩
      refine ⟨ch, ?_, hrest⟩
      exact (List.getElem?_append_left (List.getElem?_eq_some_iff.mp hch).1).trans hch
    · rw [List.mem_singleton.mp hnew]
      exact ⟨.new s.notifier.bufferSize, List.getElem?_concat_length, Nat.le_refl 0,
        List.nil_sublist _⟩

/-- Removing an entry changes nothing for the readers. -/
theorem Reading.unsubscribe (h : Reading s) (id : UInt64) :
    Reading (s.call (.unsubscribe id)) := by
  have hsublist := s.notifier.senders_unsubscribe id
  constructor
  · exact h.senders.sublist hsublist
  · exact fun sender hmem => h.created sender (hsublist.subset hmem)
  · exact h.channels
  · intro reader' hreader'
    rcases List.mem_map.mp hreader' with ⟨reader, hreader, rfl⟩
    exact h.readers reader hreader

/-- An event is sent on all channels that have a sender, and published. -/
theorem Reading.publish (h : Reading s) (publication : Publication ι) :
    Reading (s.call (.publish publication)) := by
  rcases publication.run_eq s.notifier with ⟨hchannels, _, hbuffer⟩
  have hsenders := publication.senders_run s.notifier
  have hget := sendAll_getElem? h.senders s.notifier.channels (publication.event s.notifier)
  constructor
  · rw [Feed.call, hsenders]
    exact h.senders
  · intro sender hmem
    rw [Feed.call, hsenders] at hmem
    rw [Feed.call, hchannels, ← Nat.not_le, ← List.getElem?_eq_none_iff, hget, if_pos hmem,
      Option.map_eq_none_iff, List.getElem?_eq_none_iff, Nat.not_le]
    exact h.created sender hmem
  · intro ch hch
    rw [Feed.call, hchannels] at hch
    rcases List.mem_iff_getElem?.mp hch with ⟨i, hi⟩
    rw [hget] at hi
    rw [Feed.call, hbuffer]
    by_cases hmem : i ∈ s.notifier.senders
    · rw [if_pos hmem] at hi
      rcases Option.map_eq_some_iff.mp hi with ⟨old, hold, rfl⟩
      rcases h.channels old (List.mem_of_getElem? hold) with ⟨hcapacity, hsent⟩
      exact ⟨hcapacity, hsent.append (List.Sublist.refl _)⟩
    · rw [if_neg hmem] at hi
      rcases h.channels ch (List.mem_of_getElem? hi) with ⟨hcapacity, hsent⟩
      exact ⟨hcapacity, hsent.trans (List.sublist_append_left _ _)⟩
  · intro reader hreader
    rcases h.readers reader hreader with ⟨ch, hch, hle, hreceived⟩
    rw [Feed.call, hchannels, hget, hch]
    by_cases hmem : reader.subscription.rx.channel ∈ s.notifier.senders
    · rw [if_pos hmem]
      refine ⟨ch.send (publication.event s.notifier), rfl, ?_, ?_⟩
      · rw [Broadcast.send, List.length_append]
        exact Nat.le_add_right_of_le hle
      · rw [Broadcast.send, List.take_append_of_le_length hle]
        exact hreceived
    · rw [if_neg hmem]
      exact ⟨ch, rfl, hle, hreceived⟩

/-- Without the notifier there are no senders. -/
theorem Reading.drop (h : Reading s) : Reading (s.call .drop) where
  senders := List.nodup_nil
  created := by simp [Feed.call, ChangeNotifier.drop, ChangeNotifier.senders]
  channels := h.channels
  readers := h.readers

/-- As for the state, a call that waits does what a call that does not wait does. -/
theorem Reader.recv_eq (n : ChangeNotifier ι) (reader : Reader ι) :
    reader.recv n = reader.tryRecv n.channels := by
  unfold Reader.recv Reader.tryRecv Subscription.recv Subscription.tryRecv
  cases n.channels[reader.subscription.rx.channel]? with
  | none => rfl
  | some ch =>
      rcases ch.recvWait_eq (n.senders.contains reader.subscription.rx.channel)
        reader.subscription.rx.next with ⟨hnext, hevent⟩
      simp only [hnext, ← hevent]
      cases (ch.recvWait (n.senders.contains reader.subscription.rx.channel)
        reader.subscription.rx.next).2 with
      | none => rfl
      | some outcome => rfl

/-- Readers receive in the order of their channel. -/
theorem Reading.tryRecv (h : Reading s) (i : Nat) : Reading (s.next (.tryRecv i)) := by
  refine ⟨h.senders, h.created, h.channels, ?_⟩
  intro reader' hreader'
  rcases List.mem_iff_getElem?.mp hreader' with ⟨k, hk⟩
  rw [Feed.next, List.getElem?_modify] at hk
  rcases Option.map_eq_some_iff.mp hk with ⟨reader, hreader, rfl⟩
  rcases h.readers reader (List.mem_of_getElem? hreader) with ⟨ch, hch, hle, hreceived⟩
  split
  · rcases Broadcast.sublist_recv hreceived hle with ⟨hsublist, hplace⟩
    simp only [Reader.tryRecv, Subscription.tryRecv, hch]
    exact ⟨ch, hch, hplace, hsublist⟩
  · exact ⟨ch, hch, hle, hreceived⟩

/-- Every event. -/
theorem Reading.next (h : Reading s) (event : FeedEvent ι) : Reading (s.next event) := by
  have hcall : ∀ {called : Feed ι}, Reading called → Reading (if s.dropped then s else called) := by
    intro called hcalled
    split
    · exact h
    · exact hcalled
  cases event with
  | subscribe filter =>
      refine hcall ?_
      rw [Feed.call]
      split
      · exact h.subscribe filter
      · exact h
  | unsubscribe id => exact hcall (h.unsubscribe id)
  | publish publication => exact hcall (h.publish publication)
  | recv i =>
      have hsame : s.next (.recv i) = s.next (.tryRecv i) := by
        rw [Feed.next, Feed.next, funext (Reader.recv_eq s.notifier)]
      rw [hsame]
      exact h.tryRecv i
  | tryRecv i => exact h.tryRecv i
  | drop => exact hcall h.drop

theorem bufferSize_next (s : Feed ι) (event : FeedEvent ι) :
    (s.next event).notifier.bufferSize = s.notifier.bufferSize := by
  have hcall : (s.call event).notifier.bufferSize = s.notifier.bufferSize := by
    cases event with
    | subscribe filter =>
        rw [Feed.call]
        split
        · rfl
        · rfl
    | publish publication => exact (publication.run_eq s.notifier).2.2
    | _ => rfl
  unfold Feed.next
  split
  · rfl
  · rfl
  · split
    · rfl
    · exact hcall

/-- The size of the buffer stays as it is. -/
theorem bufferSize_run (s : Feed ι) (events : List (FeedEvent ι)) :
    (feeding.run s events).notifier.bufferSize = s.notifier.bufferSize := by
  induction events generalizing s with
  | nil => rfl
  | cons event events ih => exact (ih (s.next event)).trans (bufferSize_next s event)

theorem reading_run (bufferSize : Nat) (events : List (FeedEvent ι)) :
    Reading (feeding.run (Feed.start bufferSize) events) :=
  run_invariant (M := feeding) (fun _ event h _ => h.next event) (reading_start bufferSize)
    (along_trivial _ events)

/-- What a reader has received was published, in this order. -/
theorem Reading.received_sublist (h : Reading s) {reader : Reader ι}
    (hreader : reader ∈ s.readers) : reader.received.Sublist s.published := by
  rcases h.readers reader hreader with ⟨ch, hch, _, hreceived⟩
  have hsent := (h.channels ch (List.mem_of_getElem? hch)).2
  exact hreceived.trans ((List.take_sublist _ _).trans hsent)

/-! ## The end of the stream -/

/-- Waiting that ended without a value is reported as none. -/
theorem map_toOption_eq_none_iff {ε α : Type} {outcome : Option (Except ε α)} :
    outcome.map Except.toOption = some none ↔ ∃ e, outcome = some (.error e) := by
  cases outcome with
  | none => simp
  | some result =>
      cases result with
      | error e => simp [Except.toOption]
      | ok x => simp [Except.toOption]

/-- When receiving returns none. -/
theorem Reading.recv_none_iff (h : Reading s) {reader : Reader ι} (hreader : reader ∈ s.readers) :
    (reader.subscription.recv s.notifier).2 = some none ↔
      Broadcast.slots s.notifier.bufferSize <
          (reader.subscription.unread s.notifier.channels).length ∨
        reader.subscription.unread s.notifier.channels = [] ∧
          reader.subscription.rx.channel ∉ s.notifier.senders := by
  rcases h.readers reader hreader with ⟨ch, hch, _, _⟩
  have hcapacity := (h.channels ch (List.mem_of_getElem? hch)).1
  simp only [Subscription.recv, Subscription.unread, hch]
  rw [map_toOption_eq_none_iff, Broadcast.recvWait_error_iff, hcapacity,
    List.contains_eq_mem, decide_eq_false_iff_not]

/-- For every buffer size, and in every run of calls and readers: receiving returns none only
to a reader that was removed, or after the notifier was dropped, if and only if every other
reader receives while it is at most the next power of two of the buffer size behind, and while
it is registered or has something to read. -/
theorem ends_at_end_iff (bufferSize : Nat) (events : List (FeedEvent ι)) :
    feeding.Along EndsAtEnd (Feed.start bufferSize) events ↔
      feeding.Along InReach (Feed.start bufferSize) events := by
  refine along_iff (I := Reading) (fun _ event h _ => h.next event) (fun s event h => ?_)
    (reading_start bufferSize) events
  cases event with
  | recv i =>
      refine forall₂_congr fun reader hreader => ?_
      rw [h.recv_none_iff (List.mem_of_getElem? hreader)]
      by_cases hended : reader.removed = true ∨ s.dropped = true
      · exact iff_of_true (fun _ => hended) (Or.inl hended)
      · simp only [hended, imp_false, false_or, not_or, not_and, not_not, Nat.not_lt]
        exact and_congr_right fun _ => imp_iff_or_not
  | _ => exact Iff.rfl

/-- A burst of two events for a buffer of one: the reader that is still registered is told
that the stream has ended. -/
theorem not_ends_at_end_burst :
    ¬ feeding.Along EndsAtEnd (Feed.start 1 : Feed Nat)
      [.subscribe .everything, .publish (.notifyLocal sampleChange 5),
        .publish (.notifyLocal sampleChange 6), .recv 0] := by
  decide

end Notify

end IrohSync
