import IrohSync.Notify.Subscriptions

/-!
# What subscriptions receive

Publishing sends an event on the channel of every subscriber.  Neither of the two
loops that do so looks at a filter, and neither does receiving.

Main results:

- Theorem {lit}`Attached.next`: a subscription that keeps up gets every event once
  and in order.
- Theorem {lit}`received_iff`: when these are the events that its filter matches.
-/

namespace IrohSync

namespace Notify

open Machine

variable {ι : Type}

/-! ## Publishing and receiving -/

/-- A publication through one of the three entry points. -/
inductive Publication (ι : Type) where
  | notify (event : ChangeEvent ι)
  | notifyLocal (change : Change) (now : UInt64)
  | notifySync (change : Change) (peer : ι) (now : UInt64)

/-- The notifier after a publication. -/
def Publication.run (n : ChangeNotifier ι) : Publication ι → ChangeNotifier ι
  | .notify event => n.notify event
  | .notifyLocal change now => n.notifyLocal change now
  | .notifySync change peer now => n.notifySync change peer now

/-- The event that a publication is about. -/
def Publication.event (n : ChangeNotifier ι) : Publication ι → ChangeEvent ι
  | .notify event => event
  | .notifyLocal change now => .new (.ofOperation change.operation) change (n.sequence + 1) now
  | .notifySync change peer now => .fromSync change 0 peer now

/-- What waits for a subscription in its channel. -/
def Subscription.unread (sub : Subscription) (channels : List (Broadcast (ChangeEvent ι))) :
    List (ChangeEvent ι) :=
  match channels[sub.rx.channel]? with
  | none => []
  | some ch => ch.unread sub.rx.next

/-- A subscription and what it has received. -/
structure Inbox (ι : Type) where
  subscription : Subscription
  received : List (ChangeEvent ι)

/-- The subscription takes a step. -/
def Inbox.recv (channels : List (Broadcast (ChangeEvent ι))) (inbox : Inbox ι) : Inbox ι where
  subscription := (inbox.subscription.tryRecv channels).1
  received := inbox.received ++ (inbox.subscription.tryRecv channels).2.toList

/-- A notifier, its subscriptions and all events published so far. -/
structure Delivery (ι : Type) where
  notifier : ChangeNotifier ι
  inboxes : List (Inbox ι)
  published : List (ChangeEvent ι)

/-- Subscriptions that have received nothing, before the first publication. -/
def Delivery.start (s : Subscribing ι) : Delivery ι where
  notifier := s.notifier
  inboxes := s.live.map fun sub => ⟨sub, []⟩
  published := []

/-- An event is published, or one of the subscriptions tries to receive. -/
inductive DeliveryEvent (ι : Type) where
  | publish (publication : Publication ι)
  | recv (i : Nat)

/-- The state after an event. -/
def Delivery.next (s : Delivery ι) : DeliveryEvent ι → Delivery ι
  | .publish publication =>
      { s with
        notifier := publication.run s.notifier
        published := s.published ++ [publication.event s.notifier] }
  | .recv i => { s with inboxes := s.inboxes.modify i (Inbox.recv s.notifier.channels) }

/-- Publications among the steps of the subscriptions. -/
def delivering : Machine (Delivery ι) (DeliveryEvent ι) Unit where
  next := Delivery.next
  answer _ _ := ()

/-- What a subscription has received, and what waits for it, are the published events
that match its filter. -/
def Selected (k : Nat) (s : Delivery ι) : Prop :=
  ∀ inbox ∈ s.inboxes[k]?,
    inbox.received ++ inbox.subscription.unread s.notifier.channels =
      s.published.filter inbox.subscription.filter.matches

/-- A subscription is no further behind than the channel keeps values. -/
def KeepsUp (k : Nat) (s : Delivery ι) (_ : DeliveryEvent ι) : Prop :=
  ∀ inbox ∈ s.inboxes[k]?,
    (inbox.subscription.unread s.notifier.channels).length ≤
      Broadcast.slots s.notifier.bufferSize

instance (k : Nat) (s : Delivery ι) (event : DeliveryEvent ι) : Decidable (KeepsUp k s event) :=
  inferInstanceAs (Decidable (∀ inbox ∈ s.inboxes[k]?,
    (inbox.subscription.unread s.notifier.channels).length ≤
      Broadcast.slots s.notifier.bufferSize))

/-- A published event matches the filter of a subscription if the subscription is still
registered, and does not match it otherwise. -/
def Matches (k : Nat) (s : Delivery ι) : DeliveryEvent ι → Prop
  | .publish publication => ∀ inbox ∈ s.inboxes[k]?,
      (inbox.subscription.filter.matches (publication.event s.notifier) = true ↔
        inbox.subscription.rx.channel ∈ s.notifier.senders)
  | .recv _ => True

instance (k : Nat) (s : Delivery ι) : ∀ event, Decidable (Matches k s event)
  | .publish publication =>
      inferInstanceAs (Decidable (∀ inbox ∈ s.inboxes[k]?,
        (inbox.subscription.filter.matches (publication.event s.notifier) = true ↔
          inbox.subscription.rx.channel ∈ s.notifier.senders)))
  | .recv _ => isTrue trivial

/-- Everything published, for a subscription that is still registered. -/
def Delivery.heard (s : Delivery ι) (channel : Nat) : List (ChangeEvent ι) :=
  if channel ∈ s.notifier.senders then s.published else []

/-! ## The invariant -/

/-- No two subscribers share a channel, and what a subscription has received and what
waits for it is everything published if it is registered, and nothing if it is not. -/
structure Attached (k : Nat) (s : Delivery ι) : Prop where
  senders : s.notifier.senders.Nodup
  inbox : ∀ inbox ∈ s.inboxes[k]?,
    ∃ ch, s.notifier.channels[inbox.subscription.rx.channel]? = some ch ∧
      ch.capacity = Broadcast.slots s.notifier.bufferSize ∧
      inbox.subscription.rx.next ≤ ch.sent.length ∧
      inbox.received ++ ch.unread inbox.subscription.rx.next =
        s.heard inbox.subscription.rx.channel

/-- All three entry points send their event to every subscriber. -/
theorem Publication.run_eq (publication : Publication ι) (n : ChangeNotifier ι) :
    (publication.run n).channels = sendAll n.channels n.senders (publication.event n) ∧
      (publication.run n).subscribers = n.subscribers ∧
      (publication.run n).bufferSize = n.bufferSize := by
  cases publication with
  | notify event => exact ⟨rfl, rfl, rfl⟩
  | notifyLocal change now => exact ⟨rfl, rfl, rfl⟩
  | notifySync change peer now => exact ⟨rfl, rfl, rfl⟩

theorem Publication.senders_run (publication : Publication ι) (n : ChangeNotifier ι) :
    (publication.run n).senders = n.senders := by
  rw [ChangeNotifier.senders, (publication.run_eq n).2.1, ChangeNotifier.senders]

variable {s : Delivery ι} {k : Nat}

/-- A publication. -/
theorem Attached.publish (h : Attached k s) (publication : Publication ι) :
    Attached k (s.next (.publish publication)) := by
  rcases publication.run_eq s.notifier with ⟨hchannels, _, hbuffer⟩
  have hsenders := publication.senders_run s.notifier
  constructor
  · rw [Delivery.next, hsenders]
    exact h.senders
  · intro inbox hinbox
    rcases h.inbox inbox hinbox with ⟨ch, hch, hcapacity, hle, hevents⟩
    rw [Delivery.heard] at hevents
    rw [Delivery.next, Delivery.heard, hsenders, hchannels, hbuffer, sendAll_getElem? h.senders]
    by_cases hmem : inbox.subscription.rx.channel ∈ s.notifier.senders
    · rw [if_pos hmem] at hevents ⊢
      refine ⟨ch.send (publication.event s.notifier), ?_, hcapacity, ?_, ?_⟩
      · rw [hch]
        rfl
      · rw [Broadcast.send, List.length_append]
        exact Nat.le_add_right_of_le hle
      · rw [if_pos hmem, Broadcast.unread_send hle, ← List.append_assoc, hevents]
    · rw [if_neg hmem] at hevents ⊢
      refine ⟨ch, hch, hcapacity, hle, ?_⟩
      rw [if_neg hmem]
      exact hevents

/-- A step of some subscription. -/
theorem Attached.recv (h : Attached k s) {i : Nat} (hkeeps : KeepsUp k s (.recv i)) :
    Attached k (s.next (.recv i)) := by
  refine ⟨h.senders, ?_⟩
  intro inbox' hinbox'
  rw [Delivery.next, List.getElem?_modify] at hinbox'
  rcases Option.map_eq_some_iff.mp hinbox' with ⟨inbox, hinbox, rfl⟩
  rcases h.inbox inbox hinbox with ⟨ch, hch, hcapacity, hle, hevents⟩
  by_cases hik : i = k
  · rw [if_pos hik]
    have hbehind : ch.sent.length - inbox.subscription.rx.next ≤ ch.capacity := by
      have hunread := hkeeps inbox hinbox
      rw [Subscription.unread, hch] at hunread
      rw [hcapacity, ← List.length_drop]
      exact hunread
    rcases Broadcast.recv_of_le hbehind with ⟨_, hrecv⟩ | ⟨x, hunread, hrecv⟩
    · have hsame : inbox.recv s.notifier.channels = inbox := by
        simp [Inbox.recv, Subscription.tryRecv, hch, hrecv, Except.toOption]
      rw [hsame]
      exact ⟨ch, hch, hcapacity, hle, hevents⟩
    · have hlt : inbox.subscription.rx.next < ch.sent.length := by
        by_contra hge
        rw [Broadcast.unread, List.drop_eq_nil_of_le (Nat.not_lt.mp hge)] at hunread
        contradiction
      simp only [Inbox.recv, Subscription.tryRecv, hch, hrecv]
      refine ⟨ch, hch, hcapacity, hlt, ?_⟩
      have hheard : (s.next (.recv i)).heard inbox.subscription.rx.channel =
          s.heard inbox.subscription.rx.channel := rfl
      rw [hheard, ← hevents, hunread]
      simp [Except.toOption]
  · rw [if_neg hik]
    exact ⟨ch, hch, hcapacity, hle, hevents⟩

/-- Every step before which the subscription keeps up. -/
theorem Attached.next (h : Attached k s) {event : DeliveryEvent ι}
    (hkeeps : KeepsUp k s event) : Attached k (s.next event) := by
  cases event with
  | publish publication => exact h.publish publication
  | recv i => exact h.recv hkeeps

/-- Then the subscription gets what it asked for exactly if everything published
matches its filter, or nothing does and it is not registered. -/
theorem Attached.selected_iff (h : Attached k s) :
    Selected k s ↔
      ∀ inbox ∈ s.inboxes[k]?, ∀ event ∈ s.published,
        (inbox.subscription.filter.matches event = true ↔
          inbox.subscription.rx.channel ∈ s.notifier.senders) := by
  refine forall₂_congr fun inbox hinbox => ?_
  rcases h.inbox inbox hinbox with ⟨ch, hch, _, _, hevents⟩
  rw [Subscription.unread, hch]
  change inbox.received ++ ch.unread inbox.subscription.rx.next = _ ↔ _
  rw [hevents, Delivery.heard, eq_comm]
  by_cases hmem : inbox.subscription.rx.channel ∈ s.notifier.senders
  · simp only [hmem, if_true, iff_true, List.filter_eq_self]
  · simp only [hmem, if_false, iff_false, List.filter_eq_nil_iff]

/-- Receiving changes neither the filter nor the channel. -/
theorem Inbox.recv_subscription (channels : List (Broadcast (ChangeEvent ι))) (inbox : Inbox ι) :
    (inbox.recv channels).subscription.filter = inbox.subscription.filter ∧
      (inbox.recv channels).subscription.rx.channel = inbox.subscription.rx.channel := by
  unfold Inbox.recv Subscription.tryRecv
  cases channels[inbox.subscription.rx.channel]? with
  | none => exact ⟨rfl, rfl⟩
  | some ch => exact ⟨rfl, rfl⟩

/-- A step keeps a selective subscription selective exactly if it meets the
condition. -/
theorem Attached.selected_next_iff (h : Attached k s) {event : DeliveryEvent ι}
    (hkeeps : KeepsUp k s event) (hselected : Selected k s) :
    Selected k (s.next event) ↔ Matches k s event := by
  have hbefore := h.selected_iff.mp hselected
  rw [(h.next hkeeps).selected_iff]
  cases event with
  | publish publication =>
      refine forall₂_congr fun inbox hinbox => ?_
      rw [Delivery.next, publication.senders_run, List.forall_mem_append, List.forall_mem_singleton]
      exact ⟨And.right, fun hmatches => ⟨hbefore inbox hinbox, hmatches⟩⟩
  | recv i =>
      refine iff_of_true (fun inbox' hinbox' event hevent => ?_) trivial
      rw [Delivery.next, List.getElem?_modify] at hinbox'
      rcases Option.map_eq_some_iff.mp hinbox' with ⟨inbox, hinbox, rfl⟩
      have hmatches := hbefore inbox hinbox event hevent
      split
      · rcases inbox.recv_subscription s.notifier.channels with ⟨hfilter, hchannel⟩
        rw [hfilter, hchannel]
        exact hmatches
      · exact hmatches

/-! ## The subscriptions of a notifier -/

/-- As long as nothing is published all channels and receivers are as they were
created, and every subscription was given a channel of its own. -/
structure Untouched (s : Subscribing ι) : Prop where
  channels : ∀ ch ∈ s.notifier.channels, ch = .new s.notifier.bufferSize
  receivers : ∀ sub ∈ s.live, sub.rx.next = 0 ∧ sub.rx.channel < s.notifier.channels.length
  created : ∀ sender ∈ s.notifier.senders, sender < s.notifier.channels.length
  senders : s.notifier.senders.Nodup

theorem untouched_start (bufferSize : Nat) :
    Untouched (Subscribing.start bufferSize : Subscribing ι) where
  channels := by simp [Subscribing.start, ChangeNotifier.new]
  receivers := by simp [Subscribing.start]
  created := by simp [Subscribing.start, ChangeNotifier.new, ChangeNotifier.senders]
  senders := List.nodup_nil

theorem Untouched.subscribe {s : Subscribing ι} (h : Untouched s) (filter : SubscriptionFilter) :
    Untouched (s.subscribe filter) := by
  have hlength : (s.subscribe filter).notifier.channels.length =
      s.notifier.channels.length + 1 := List.length_append
  rcases ChangeNotifier.senders_nodup_subscribe h.senders h.created filter with
    ⟨hnodup, hcreated⟩
  refine ⟨?_, ?_, hcreated, hnodup⟩
  · intro ch hch
    rcases List.mem_append.mp hch with hold | hnew
    · exact h.channels ch hold
    · exact List.mem_singleton.mp hnew
  · intro sub hsub
    rw [hlength]
    rcases List.mem_append.mp hsub with hold | hnew
    · exact ⟨(h.receivers sub hold).1, Nat.lt_succ_of_lt (h.receivers sub hold).2⟩
    · rw [List.mem_singleton.mp hnew]
      exact ⟨rfl, Nat.lt_succ_self _⟩

theorem Untouched.next {s : Subscribing ι} (h : Untouched s) (call : SubscriberCall) :
    Untouched (s.next call) := by
  cases call with
  | subscribe filter =>
      rw [Subscribing.next]
      split
      · exact h.subscribe filter
      · exact h
  | unsubscribe id =>
      have hsublist := s.notifier.senders_unsubscribe id
      exact ⟨h.channels, fun sub hsub => h.receivers sub (List.mem_of_mem_filter hsub),
        fun sender hmem => h.created sender (hsublist.subset hmem), h.senders.sublist hsublist⟩

/-- Before the first publication nothing is received and nothing waits. -/
theorem Untouched.attached {s : Subscribing ι} (h : Untouched s) (k : Nat) :
    Attached k (Delivery.start s) := by
  refine ⟨h.senders, ?_⟩
  intro inbox hinbox
  rw [Delivery.start, List.getElem?_map] at hinbox
  rcases Option.map_eq_some_iff.mp hinbox with ⟨sub, hsub, rfl⟩
  rcases h.receivers sub (List.mem_of_getElem? hsub) with ⟨hnext, hcreated⟩
  have hch := h.channels _ (List.getElem_mem hcreated)
  refine ⟨_, List.getElem?_eq_getElem hcreated, ?_⟩
  rw [hch, hnext, Delivery.heard, Delivery.start, ite_self]
  exact ⟨rfl, Nat.le_refl 0, rfl⟩

/-- After any calls. -/
theorem attached_run (bufferSize : Nat) (history : List SubscriberCall) (k : Nat) :
    Attached k (Delivery.start
      (subscribing.run (Subscribing.start bufferSize : Subscribing ι) history)) := by
  have huntouched := run_invariant (M := subscribing) (I := Untouched)
    (fun s call h _ => h.next call) (untouched_start (ι := ι) bufferSize)
    (along_trivial _ history)
  exact huntouched.attached k

/-! ## What is received -/

/-- For every subscription that a notifier returned: in every run in which it keeps up,
it gets exactly the events that its filter matches if and only if every event published
matches, or none does and another subscription has taken its place. -/
theorem received_iff (bufferSize : Nat) (history : List SubscriberCall) (k : Nat)
    (events : List (DeliveryEvent ι))
    (hkeeps : delivering.Along (KeepsUp k) (Delivery.start
      (subscribing.run (Subscribing.start bufferSize : Subscribing ι) history)) events) :
    delivering.Along (fun s event => Selected k (s.next event)) (Delivery.start
        (subscribing.run (Subscribing.start bufferSize : Subscribing ι) history)) events ↔
      delivering.Along (Matches k) (Delivery.start
        (subscribing.run (Subscribing.start bufferSize : Subscribing ι) history)) events := by
  have hattached := attached_run (ι := ι) bufferSize history k
  have hselected := hattached.selected_iff.mpr fun _ _ event hevent => absurd hevent
    List.not_mem_nil
  exact hkeeps.congr (I := fun s => Attached k s ∧ Selected k s)
    (fun s event h hkeeps hselected => ⟨h.1.next hkeeps, hselected⟩)
    (fun s event h hkeeps => h.1.selected_next_iff hkeeps h.2) ⟨hattached, hselected⟩

/-- Two subscriptions, of which the second is to one namespace, and three events of that
namespace, the first of them received before the others are published. -/
theorem received_iff_sample :
    delivering.Along (fun s event => Selected 1 (s.next event)) (Delivery.start
        (subscribing.run (Subscribing.start 3 : Subscribing Nat)
          [.subscribe SubscriptionFilter.everything,
            .subscribe (SubscriptionFilter.everything.withNamespace "n")]))
      [.publish (.notifyLocal sampleChange 5), .recv 1, .publish (.notifyLocal otherChange 6),
        .publish (.notify (.new .set sampleChange 1 7)), .recv 0, .recv 1, .recv 1] :=
  (received_iff 3
    [.subscribe SubscriptionFilter.everything,
      .subscribe (SubscriptionFilter.everything.withNamespace "n")] 1
    [.publish (.notifyLocal sampleChange 5), .recv 1, .publish (.notifyLocal otherChange 6),
      .publish (.notify (.new .set sampleChange 1 7)), .recv 0, .recv 1, .recv 1]
    (by decide)).mpr (by decide)

/-- A subscription to another namespace receives the event as well. -/
theorem not_selected_other :
    ¬ delivering.Along (fun s event => Selected 0 (s.next event)) (Delivery.start
      (subscribing.run (Subscribing.start 10 : Subscribing Nat)
        [.subscribe (SubscriptionFilter.everything.withNamespace "other")]))
      [.publish (.notify (.new .set sampleChange 1 5)), .recv 0] := by
  unfold Selected
  decide

end Notify

end IrohSync
