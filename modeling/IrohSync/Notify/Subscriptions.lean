import IrohSync.Lib.Machine
import IrohSync.Notify.Notifier

/-!
# Subscribing and unsubscribing

A subscription gets the number of registered ones plus one as its identifier.
After an earlier subscription was removed that identifier may still be registered;
the new entry then replaces the one that is there.

Main results:

- Theorem {lit}`Wired.next`: what subscribing under an unused identifier and any
  removal keep.
- Theorem {lit}`registered_iff`: in which runs all subscriptions that were not
  removed stay registered.
-/

namespace IrohSync

namespace Notify

open Machine

variable {ι : Type}

/-! ## Runs -/

/-- A notifier, and the subscriptions that were returned and not removed since. -/
structure Subscribing (ι : Type) where
  notifier : ChangeNotifier ι
  live : List Subscription

/-- A call of the notifier. -/
inductive SubscriberCall where
  | subscribe (filter : SubscriptionFilter)
  | unsubscribe (id : UInt64)

/-- A new notifier. -/
def Subscribing.start (bufferSize : Nat) : Subscribing ι where
  notifier := .new bufferSize
  live := []

/-- The state after a subscription. -/
def Subscribing.subscribe (s : Subscribing ι) (filter : SubscriptionFilter) : Subscribing ι where
  notifier := (s.notifier.subscribe filter).1
  live := s.live ++ [(s.notifier.subscribe filter).2]

/-- The state after a call. -/
def Subscribing.next (s : Subscribing ι) : SubscriberCall → Subscribing ι
  | .subscribe filter => if s.notifier.Opens then s.subscribe filter else s
  | .unsubscribe id =>
      { notifier := s.notifier.unsubscribe id
        live := s.live.filter fun sub => sub.id != id }

/-- The runs of a notifier's calls. -/
def subscribing : Machine (Subscribing ι) SubscriberCall Unit where
  next := Subscribing.next
  answer _ _ := ()

/-- The live subscriptions have distinct identifiers, each is registered with its
own filter and channel, and no others are. -/
structure Registered (s : Subscribing ι) : Prop where
  ids : (s.live.map Subscription.id).Nodup
  channels : (s.live.map fun sub => sub.rx.channel).Nodup
  entries : ∀ sub ∈ s.live,
    s.notifier.subscribers.lookup sub.id = some ⟨sub.filter, sub.rx.channel⟩
  count : s.notifier.subscriberCount = s.live.length

/-- Removing an identifier removes the live subscription that has it, and no other. -/
def RemovesExactly (s : Subscribing ι) : SubscriberCall → Prop
  | .subscribe _ => True
  | .unsubscribe id => ∀ sub ∈ s.live,
      ((s.next (.unsubscribe id)).notifier.subscribers.lookup sub.id = none ↔ sub.id = id)

/-- A new subscription gets an identifier that is not registered. -/
def Unused (s : Subscribing ι) : SubscriberCall → Prop
  | .subscribe _ => s.notifier.nextId ∉ s.notifier.subscribers
  | .unsubscribe _ => True

instance (s : Subscribing ι) : ∀ call, Decidable (Unused s call)
  | .subscribe _ => inferInstanceAs (Decidable (s.notifier.nextId ∉ s.notifier.subscribers))
  | .unsubscribe _ => isTrue trivial

/-! ## The invariant -/

/-- The table has exactly the live subscriptions, and channels are never reused. -/
structure Wired (s : Subscribing ι) : Prop where
  keys : s.notifier.subscribers.keys.Perm (s.live.map Subscription.id)
  entries : ∀ sub ∈ s.live,
    s.notifier.subscribers.lookup sub.id = some ⟨sub.filter, sub.rx.channel⟩
  channels : (s.live.map fun sub => sub.rx.channel).Nodup
  created : ∀ sub ∈ s.live, sub.rx.channel < s.notifier.channels.length
  opens : s.live ≠ [] → s.notifier.Opens

theorem wired_start (bufferSize : Nat) : Wired (Subscribing.start bufferSize : Subscribing ι) where
  keys := List.Perm.refl []
  entries := by simp [Subscribing.start]
  channels := List.nodup_nil
  created := by simp [Subscribing.start]
  opens := fun hne => absurd rfl hne

variable {s : Subscribing ι}

theorem Wired.registered (h : Wired s) : Registered s where
  ids := h.keys.nodup_iff.mp s.notifier.subscribers.keys_nodup
  channels := h.channels
  entries := h.entries
  count := by rw [ChangeNotifier.subscriberCount_eq, h.keys.length_eq, List.length_map]

/-- Subscribing under an unused identifier. -/
theorem Wired.subscribe (h : Wired s) {filter : SubscriptionFilter}
    (hunused : Unused s (.subscribe filter)) (hopens : s.notifier.Opens) :
    Wired (s.subscribe filter) where
  keys := by
    have hkeys : s.notifier.nextId ∉ s.notifier.subscribers.keys :=
      fun hmem => hunused (AList.mem_keys.mpr hmem)
    rw [Subscribing.subscribe, ChangeNotifier.subscribers_subscribe, AList.keys_insert,
      List.erase_of_not_mem hkeys, List.map_append]
    exact (h.keys.cons _).trans (List.perm_append_singleton _ _).symm
  entries := by
    intro sub hsub
    rw [Subscribing.subscribe, ChangeNotifier.lookup_subscribe]
    rcases List.mem_append.mp hsub with hold | hnew
    · have hentry := h.entries sub hold
      have hne : sub.id ≠ s.notifier.nextId := by
        intro heq
        rw [heq, AList.lookup_eq_none.mpr hunused] at hentry
        contradiction
      rw [if_neg hne, hentry]
    · rw [List.mem_singleton.mp hnew]
      exact if_pos rfl
  channels := by
    rw [Subscribing.subscribe, List.map_append]
    refine h.channels.append (List.nodup_singleton _) ?_
    intro channel hold hnew
    rcases List.mem_map.mp hold with ⟨sub, hsub, rfl⟩
    exact Nat.ne_of_lt (h.created sub hsub) (List.mem_singleton.mp hnew)
  created := by
    intro sub hsub
    rw [Subscribing.subscribe, ChangeNotifier.subscribe, List.length_append]
    rcases List.mem_append.mp hsub with hold | hnew
    · exact Nat.lt_add_right _ (h.created sub hold)
    · rw [List.mem_singleton.mp hnew]
      exact Nat.lt_succ_self _
  opens := fun _ => hopens

/-- Removing any identifier. -/
theorem Wired.unsubscribe (h : Wired s) (id : UInt64) : Wired (s.next (.unsubscribe id)) where
  keys := by
    have hids := h.registered.ids
    have herase : (s.live.map Subscription.id).erase id =
        (s.live.filter fun sub => sub.id != id).map Subscription.id := by
      rw [hids.erase_eq_filter, List.filter_map]
      rfl
    rw [Subscribing.next, ChangeNotifier.unsubscribe, AList.keys_erase, ← herase]
    exact h.keys.erase id
  entries := by
    intro sub hsub
    rcases List.mem_filter.mp hsub with ⟨hold, hne⟩
    rw [Subscribing.next, ChangeNotifier.lookup_unsubscribe, if_neg (bne_iff_ne.mp hne),
      h.entries sub hold]
  channels := h.channels.sublist (List.filter_sublist.map _)
  created := fun sub hsub => h.created sub (List.mem_of_mem_filter hsub)
  opens := by
    intro hne
    refine h.opens fun hempty => hne ?_
    rw [Subscribing.next, hempty]
    rfl

theorem Wired.next (h : Wired s) {call : SubscriberCall} (hunused : Unused s call) :
    Wired (s.next call) := by
  cases call with
  | subscribe filter =>
      rw [Subscribing.next]
      split
      · next hopens => exact h.subscribe hunused hopens
      · exact h
  | unsubscribe id => exact h.unsubscribe id

/-- A removal finds the subscription with its identifier. -/
theorem Wired.removesExactly (h : Wired s) (call : SubscriberCall) : RemovesExactly s call := by
  cases call with
  | subscribe filter => trivial
  | unsubscribe id =>
      intro sub hsub
      rw [Subscribing.next, ChangeNotifier.lookup_unsubscribe, h.entries sub hsub]
      split
      · next heq => exact iff_of_true rfl heq
      · next hne => exact iff_of_false (Option.some_ne_none _) hne

/-- A subscription under an identifier that is registered takes the place of
another one, so that fewer are registered than are live. -/
theorem Wired.unused_of_registered (h : Wired s) {call : SubscriberCall}
    (hregistered : Registered (s.next call)) : Unused s call := by
  cases call with
  | unsubscribe id => trivial
  | subscribe filter =>
      intro hused
      -- something is registered, so subscriptions can be made
      have hlive : s.live ≠ [] := by
        intro hempty
        have hkeys := h.keys
        rw [hempty, List.map_nil, List.perm_nil] at hkeys
        rw [AList.mem_keys, hkeys] at hused
        contradiction
      have hbefore := h.registered.count
      have hafter := hregistered.count
      rw [ChangeNotifier.subscriberCount] at hbefore
      rw [Subscribing.next, if_pos (h.opens hlive), Subscribing.subscribe,
        ChangeNotifier.subscriberCount, ChangeNotifier.subscribers_subscribe,
        Table.length_insert_of_mem hused, List.length_append, List.length_singleton,
        hbefore] at hafter
      omega

/-! ## Runs -/

/-- In a run of a new notifier subscriptions are never confused if and only if every
new one gets an identifier that is not registered. -/
theorem registered_iff (bufferSize : Nat) (calls : List SubscriberCall) :
    subscribing.Along (fun s call => Registered (s.next call) ∧ RemovesExactly s call)
        (Subscribing.start bufferSize : Subscribing ι) calls ↔
      subscribing.Along Unused (Subscribing.start bufferSize : Subscribing ι) calls := by
  have hsound : ∀ (s : Subscribing ι) call, Wired s →
      (Registered (s.next call) ∧ RemovesExactly s call ↔ Unused s call) := fun s call h =>
    ⟨fun hsound => h.unused_of_registered hsound.1,
      fun hunused => ⟨(h.next hunused).registered, h.removesExactly call⟩⟩
  exact along_iff (fun s call h hcall => h.next ((hsound s call h).mp hcall)) hsound
    (wired_start bufferSize) calls

/-- Of two subscriptions the first one is removed; the next one takes the place of
the second. -/
theorem not_registered_reused :
    ¬ subscribing.Along (fun s call => Registered (s.next call) ∧ RemovesExactly s call)
      (Subscribing.start 10 : Subscribing Nat)
      [.subscribe .everything, .subscribe .everything, .unsubscribe 1,
        .subscribe .everything] := by
  intro hsound
  exact absurd (hsound.mono fun _ _ h => h.1.ids) (by decide)

end Notify

end IrohSync
