import Mathlib.Data.List.AList
import IrohSync.Change
import IrohSync.Lib.Broadcast
import IrohSync.Lib.Table

/-!
# Change notifications

The event bus: subscribers with their filters, each at the end of a broadcast
channel of its own, and the publication of change events.  The channels that were
created so far stand in a list; a sender and a receiver name theirs by its place.
The order in which the table of subscribers is gone through means nothing.

Main results:

- Theorem {lit}`ChangeNotifier.lookup_subscribe` and
  {lit}`ChangeNotifier.lookup_unsubscribe`: what subscribing and unsubscribing do
  to the table.
-/

namespace IrohSync

namespace Notify

/-! ## Events and filters -/

/-- Type of change event. -/
inductive ChangeEventType where
  | set
  | delete
  | batch
deriving DecidableEq, Repr

/-- A change event with metadata. -/
structure ChangeEvent (ι : Type) where
  eventType : ChangeEventType
  change : Change
  sourcePeer : Option ι
  sequence : UInt64
  timestampSecs : UInt64
deriving DecidableEq, Repr

variable {ι : Type}

/-- Create a new change event. -/
def ChangeEvent.new (eventType : ChangeEventType) (change : Change) (sequence now : UInt64) :
    ChangeEvent ι where
  eventType := eventType
  change := change
  sourcePeer := none
  sequence := sequence
  timestampSecs := now

/-- The type of the event for an operation. -/
def ChangeEventType.ofOperation : ChangeOperation → ChangeEventType
  | .set => .set
  | .delete => .delete
  | _ => .set

/-- Create from a sync source. -/
def ChangeEvent.fromSync (change : Change) (sequence : UInt64) (peer : ι) (now : UInt64) :
    ChangeEvent ι where
  eventType := .ofOperation change.operation
  change := change
  sourcePeer := some peer
  sequence := sequence
  timestampSecs := now

/-- Subscription filter for change events. -/
structure SubscriptionFilter where
  namespaces : Option (List String)
  databases : Option (List String)
deriving DecidableEq, Repr

/-- A filter that matches everything. -/
def SubscriptionFilter.everything : SubscriptionFilter where
  namespaces := none
  databases := none

/-- Filter by namespace. -/
def SubscriptionFilter.withNamespace (filter : SubscriptionFilter) (ns : String) :
    SubscriptionFilter :=
  { filter with namespaces := some (filter.namespaces.getD [] ++ [ns]) }

/-- Check if an event matches this filter. -/
def SubscriptionFilter.matches (filter : SubscriptionFilter) (event : ChangeEvent ι) : Bool :=
  (match filter.namespaces with
    | some namespaces => namespaces.contains event.change.namespace
    | none => true) &&
  match filter.databases with
    | some databases => databases.contains event.change.database
    | none => true

/-! ## The notifier -/

/-- The receiving end of a channel. -/
structure Receiver where
  channel : Nat
  next : Nat
deriving DecidableEq, Repr

/-- Subscription handle for receiving change events. -/
structure Subscription where
  id : UInt64
  filter : SubscriptionFilter
  rx : Receiver
deriving DecidableEq, Repr

/-- Subscriber entry: the filter and the sending end of a channel. -/
structure SubscriberEntry where
  filter : SubscriptionFilter
  sender : Nat
deriving DecidableEq, Repr

/-- Event bus for distributing change notifications, with the channels created so
far. -/
structure ChangeNotifier (ι : Type) where
  subscribers : AList fun _ : UInt64 => SubscriberEntry
  sequence : UInt64
  bufferSize : Nat
  channels : List (Broadcast (ChangeEvent ι))

namespace ChangeNotifier

/-- Create a new change notifier. -/
def new (bufferSize : Nat) : ChangeNotifier ι where
  subscribers := ∅
  sequence := 0
  bufferSize := bufferSize
  channels := []

/-- The number of entries of the table. -/
def subscriberCount (n : ChangeNotifier ι) : Nat :=
  n.subscribers.entries.length

/-- The identifier of the next subscription. -/
def nextId (n : ChangeNotifier ι) : UInt64 :=
  UInt64.ofNat n.subscriberCount + 1

/-- A subscription can be made.  For other sizes of the buffer there is no channel, and
subscribing panics before it does anything. -/
def Opens (n : ChangeNotifier ι) : Prop :=
  Broadcast.Allowed n.bufferSize

instance (n : ChangeNotifier ι) : Decidable n.Opens :=
  inferInstanceAs (Decidable (Broadcast.Allowed n.bufferSize))

/-- Subscribe to changes with a filter, where this is possible. -/
def subscribe (n : ChangeNotifier ι) (filter : SubscriptionFilter) :
    ChangeNotifier ι × Subscription :=
  let channel := n.channels.length
  let id := n.nextId
  ({ n with
      subscribers := n.subscribers.insert id ⟨filter, channel⟩
      channels := n.channels ++ [.new n.bufferSize] },
    ⟨id, filter, ⟨channel, 0⟩⟩)

/-- Unsubscribe from changes. -/
def unsubscribe (n : ChangeNotifier ι) (id : UInt64) : ChangeNotifier ι :=
  { n with subscribers := n.subscribers.erase id }

/-- The senders of the subscribers, in the order in which the table is gone through. -/
def senders (n : ChangeNotifier ι) : List Nat :=
  n.subscribers.entries.map fun entry => entry.2.sender

/-- Publish a change event. -/
def notify (n : ChangeNotifier ι) (event : ChangeEvent ι) : ChangeNotifier ι :=
  { n with channels := sendAll n.channels n.senders event }

/-- Publish a change from a sync operation. -/
def notifySync (n : ChangeNotifier ι) (change : Change) (peer : ι) (now : UInt64) :
    ChangeNotifier ι :=
  { n with channels := sendAll n.channels n.senders (ChangeEvent.fromSync change 0 peer now) }

/-- Increment and return the sequence number. -/
def incSequence (n : ChangeNotifier ι) : ChangeNotifier ι × UInt64 :=
  ({ n with sequence := n.sequence + 1 }, n.sequence + 1)

/-- The observer's notification of a local change. -/
def notifyLocal (n : ChangeNotifier ι) (change : Change) (now : UInt64) : ChangeNotifier ι :=
  let (n, seq) := n.incSequence
  n.notify
    { eventType := .ofOperation change.operation
      change := change
      sourcePeer := none
      sequence := seq
      timestampSecs := now }

end ChangeNotifier

/-- Try to receive without waiting. -/
def Subscription.tryRecv (sub : Subscription) (channels : List (Broadcast (ChangeEvent ι))) :
    Subscription × Option (ChangeEvent ι) :=
  match channels[sub.rx.channel]? with
  | none => (sub, none)
  | some ch =>
      let (next, outcome) := ch.recv sub.rx.next
      ({ sub with rx := { sub.rx with next := next } }, outcome.toOption)

/-- Receive the next event, or none where the channel returns an error; while the subscription
waits there is no outcome. -/
def Subscription.recv (sub : Subscription) (n : ChangeNotifier ι) :
    Subscription × Option (Option (ChangeEvent ι)) :=
  match n.channels[sub.rx.channel]? with
  | none => (sub, none)
  | some ch =>
      let (next, outcome) := ch.recvWait (n.senders.contains sub.rx.channel) sub.rx.next
      ({ sub with rx := { sub.rx with next := next } }, outcome.map Except.toOption)

/-- Drop the notifier: all senders go with it, and the channels stay for their receivers. -/
def ChangeNotifier.drop (n : ChangeNotifier ι) : ChangeNotifier ι :=
  { n with subscribers := ∅ }

/-! ## The table -/

namespace ChangeNotifier

variable (n : ChangeNotifier ι)

@[simp]
theorem subscribers_subscribe (filter : SubscriptionFilter) :
    (n.subscribe filter).1.subscribers =
      n.subscribers.insert n.nextId ⟨filter, n.channels.length⟩ :=
  rfl

theorem lookup_subscribe (filter : SubscriptionFilter) (id : UInt64) :
    (n.subscribe filter).1.subscribers.lookup id =
      if id = n.nextId then some ⟨filter, n.channels.length⟩ else n.subscribers.lookup id := by
  rw [subscribers_subscribe]
  split
  · next heq => rw [heq, AList.lookup_insert]
  · next hne => exact AList.lookup_insert_ne hne

theorem lookup_unsubscribe (id id' : UInt64) :
    (n.unsubscribe id).subscribers.lookup id' =
      if id' = id then none else n.subscribers.lookup id' := by
  rw [unsubscribe]
  split
  · next heq => rw [heq, AList.lookup_erase]
  · next hne => exact AList.lookup_erase_ne hne

/-- A new subscription has a sender of its own, and no other one is added. -/
theorem senders_subscribe (filter : SubscriptionFilter) :
    (n.subscribe filter).1.senders.Sublist (n.channels.length :: n.senders) := by
  rw [senders, subscribers_subscribe, AList.entries_insert]
  exact ((List.kerase_sublist n.nextId n.subscribers.entries).map _).cons_cons _

/-- If every sender has a channel of its own, this is so after another subscription. -/
theorem senders_nodup_subscribe {n : ChangeNotifier ι} (hnodup : n.senders.Nodup)
    (hcreated : ∀ sender ∈ n.senders, sender < n.channels.length) (filter : SubscriptionFilter) :
    (n.subscribe filter).1.senders.Nodup ∧
      ∀ sender ∈ (n.subscribe filter).1.senders,
        sender < (n.subscribe filter).1.channels.length := by
  have hsublist := n.senders_subscribe filter
  have hlength : (n.subscribe filter).1.channels.length = n.channels.length + 1 :=
    List.length_append
  constructor
  · refine (List.nodup_cons.mpr ⟨fun hmem => ?_, hnodup⟩).sublist hsublist
    exact Nat.lt_irrefl _ (hcreated _ hmem)
  · intro sender hmem
    rw [hlength]
    rcases List.mem_cons.mp (hsublist.subset hmem) with hnew | hold
    · rw [hnew]
      exact Nat.lt_succ_self _
    · exact Nat.lt_succ_of_lt (hcreated sender hold)

theorem senders_unsubscribe (id : UInt64) : (n.unsubscribe id).senders.Sublist n.senders :=
  (List.kerase_sublist id n.subscribers.entries).map _

theorem subscriberCount_eq : n.subscriberCount = n.subscribers.keys.length :=
  Table.length_keys.symm

end ChangeNotifier

end Notify

end IrohSync
