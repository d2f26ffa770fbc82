import Mathlib.Algebra.Order.Ring.Nat
import Mathlib.Data.List.Nodup
import Mathlib.Data.Nat.Log

/-!
# Broadcast channels

A broadcast channel keeps the values that were sent on it, and every receiver
has its own place in them.  A receiver that is more than a capacity behind has
lagged: it gets an error once and goes on with the oldest value that is kept.  The
capacity is a power of two.

Several channels are addressed by their places in a list.

Main results:

- Theorem {lit}`Broadcast.recv_of_le`: a receiver that has not lagged gets the next
  value.
- Theorem {lit}`Broadcast.recvWait_error_iff`: when waiting for a value ends without one.
- Theorem {lit}`Broadcast.sublist_recv`: values are received in the order of sending.
- Theorem {lit}`sendAll_getElem?`: sending one value on several channels.
-/

/-- A channel with every value that was sent on it. -/
structure Broadcast (α : Type) where
  capacity : Nat
  sent : List α
deriving DecidableEq, Repr

namespace Broadcast

variable {α : Type}

/-- A channel can be made for a number of values. -/
def Allowed (size : Nat) : Prop :=
  0 < size ∧ size < 2 ^ 63

instance (size : Nat) : Decidable (Allowed size) :=
  inferInstanceAs (Decidable (0 < size ∧ size < 2 ^ 63))

/-- How many values are kept when some number was asked for: the next power of two. -/
def slots (size : Nat) : Nat :=
  2 ^ Nat.clog 2 size

/-- A channel on which nothing was sent. -/
def new (size : Nat) : Broadcast α where
  capacity := slots size
  sent := []

theorem slots_pos (size : Nat) : 0 < slots size :=
  Nat.two_pow_pos _

/-- Send a value. -/
def send (ch : Broadcast α) (x : α) : Broadcast α :=
  { ch with sent := ch.sent ++ [x] }

/-- The place of a receiver that subscribes now: it gets what is sent from here on. -/
def subscribe (ch : Broadcast α) : Nat :=
  ch.sent.length

/-- Why nothing was received. -/
inductive TryRecvError where
  | empty
  | lagged
deriving DecidableEq, Repr

/-- Receive the value at a place: the next place, and the outcome. -/
def recv (ch : Broadcast α) (next : Nat) : Nat × Except TryRecvError α :=
  match ch.sent[next]? with
  | none => (next, .error .empty)
  | some x =>
      if ch.capacity < ch.sent.length - next then
        (ch.sent.length - ch.capacity, .error .lagged)
      else (next + 1, .ok x)

/-- What a receiver at a place has not received yet. -/
def unread (ch : Broadcast α) (next : Nat) : List α :=
  ch.sent.drop next

/-- Why no more values come, or some were missed. -/
inductive RecvError where
  | closed
  | lagged
deriving DecidableEq, Repr

/-- Wait for the value at a place: the next place, and the outcome if there is one.  While
there is a sender an empty channel has none; without a sender it is closed. -/
def recvWait (ch : Broadcast α) (hasSender : Bool) (next : Nat) :
    Nat × Option (Except RecvError α) :=
  match ch.recv next with
  | (next, .ok x) => (next, some (.ok x))
  | (next, .error .lagged) => (next, some (.error .lagged))
  | (next, .error .empty) => (next, if hasSender then none else some (.error .closed))

/-- A receiver that has not lagged gets the values one by one. -/
theorem recv_of_le {ch : Broadcast α} {next : Nat}
    (hle : ch.sent.length - next ≤ ch.capacity) :
    (ch.unread next = [] ∧ ch.recv next = (next, .error .empty)) ∨
      ∃ x, ch.unread next = x :: ch.unread (next + 1) ∧ ch.recv next = (next + 1, .ok x) := by
  unfold unread recv
  cases hx : ch.sent[next]? with
  | none => exact Or.inl ⟨List.drop_eq_nil_of_le (List.getElem?_eq_none_iff.mp hx), rfl⟩
  | some x =>
      rcases List.getElem?_eq_some_iff.mp hx with ⟨hlt, rfl⟩
      exact Or.inr ⟨_, List.drop_eq_getElem_cons hlt, if_neg (Nat.not_lt.mpr hle)⟩

/-- A receiver gets nothing that was sent before it subscribed. -/
theorem unread_subscribe (ch : Broadcast α) : ch.unread ch.subscribe = [] :=
  List.drop_length

theorem unread_send {ch : Broadcast α} {next : Nat} (hle : next ≤ ch.sent.length) (x : α) :
    (ch.send x).unread next = ch.unread next ++ [x] :=
  List.drop_append_of_le_length hle

/-- A receiver has something to read after a send. -/
theorem unread_send_ne_nil {ch : Broadcast α} {next : Nat} (hle : next ≤ ch.sent.length)
    (x : α) : (ch.send x).unread next ≠ [] := by
  rw [unread_send hle]
  exact List.append_ne_nil_of_right_ne_nil _ (List.cons_ne_nil _ _)

/-- A receiver finds the channel empty exactly if it has nothing to read. -/
theorem recv_empty_iff {ch : Broadcast α} {next : Nat} :
    (ch.recv next).2 = .error .empty ↔ ch.unread next = [] := by
  unfold recv unread
  rw [List.drop_eq_nil_iff, ← List.getElem?_eq_none_iff]
  cases ch.sent[next]? with
  | none => simp
  | some x =>
      by_cases hlagged : ch.capacity < ch.sent.length - next
      · simp [hlagged]
      · simp [hlagged]

/-- A receiver that is more than the capacity behind has lagged. -/
theorem recv_of_lt {ch : Broadcast α} {next : Nat}
    (hlt : ch.capacity < (ch.unread next).length) :
    ch.recv next = (ch.sent.length - ch.capacity, .error .lagged) := by
  rw [unread, List.length_drop] at hlt
  have hin : next < ch.sent.length := by omega
  rw [recv, List.getElem?_eq_getElem hin]
  exact if_pos hlt

/-- A receiver that has received everything gets the next value that is sent. -/
theorem recv_send {ch : Broadcast α} (hcapacity : 0 < ch.capacity) (x : α) :
    (ch.send x).recv ch.sent.length = (ch.sent.length + 1, .ok x) := by
  unfold recv send
  have hlength : (ch.sent ++ [x]).length - ch.sent.length = 1 := by
    rw [List.length_append, Nat.add_sub_cancel_left, List.length_singleton]
  simp only [List.getElem?_concat_length, hlength]
  exact if_neg (Nat.not_lt.mpr hcapacity)

/-- Waiting ends without a value exactly if the receiver has lagged, or has nothing to read
and there is no sender. -/
theorem recvWait_error_iff {ch : Broadcast α} {hasSender : Bool} {next : Nat} :
    (∃ e, (ch.recvWait hasSender next).2 = some (.error e)) ↔
      ch.capacity < (ch.unread next).length ∨ (ch.unread next = [] ∧ hasSender = false) := by
  by_cases hlagged : ch.capacity < (ch.unread next).length
  · rw [recvWait, recv_of_lt hlagged]
    exact iff_of_true ⟨.lagged, rfl⟩ (Or.inl hlagged)
  · have hle : ch.sent.length - next ≤ ch.capacity := by
      rw [← List.length_drop]
      exact Nat.le_of_not_lt hlagged
    rcases recv_of_le hle with ⟨hunread, hrecv⟩ | ⟨x, hunread, hrecv⟩
    · rw [recvWait, hrecv]
      cases hasSender with
      | true => simp [hunread]
      | false => simp [hunread]
    · rw [recvWait, hrecv]
      refine iff_of_false (by simp) (not_or.mpr ⟨hlagged, fun hempty => ?_⟩)
      rw [hempty.1] at hunread
      contradiction

/-- What receivers were given is in order and was sent in front of their place. -/
theorem sublist_recv {ch : Broadcast α} {next : Nat} {received : List α}
    (h : received.Sublist (ch.sent.take next)) (hle : next ≤ ch.sent.length) :
    (received ++ (ch.recv next).2.toOption.toList).Sublist (ch.sent.take (ch.recv next).1) ∧
      (ch.recv next).1 ≤ ch.sent.length := by
  by_cases hlagged : ch.capacity < (ch.unread next).length
  · have hlength := hlagged
    rw [unread, List.length_drop] at hlength
    rw [recv_of_lt hlagged]
    refine ⟨?_, Nat.sub_le _ _⟩
    have htake : (ch.sent.take next).Sublist (ch.sent.take (ch.sent.length - ch.capacity)) :=
      (List.take_prefix_take_left (by omega)).sublist
    simpa [Except.toOption] using h.trans htake
  · have hlag : ch.sent.length - next ≤ ch.capacity := by
      rw [← List.length_drop]
      exact Nat.le_of_not_lt hlagged
    rcases recv_of_le hlag with ⟨_, hrecv⟩ | ⟨x, hunread, hrecv⟩
    · rw [hrecv]
      exact ⟨by simpa [Except.toOption] using h, hle⟩
    · have hlt : next < ch.sent.length := by
        by_contra hge
        rw [unread, List.drop_eq_nil_of_le (Nat.not_lt.mp hge)] at hunread
        contradiction
      have hx : x = ch.sent[next] := by
        rw [unread, List.drop_eq_getElem_cons hlt] at hunread
        exact (List.cons.inj hunread).1.symm
      rw [hrecv]
      refine ⟨?_, hlt⟩
      rw [List.take_succ_eq_append_getElem hlt, ← hx]
      exact h.append (List.Sublist.refl _)

/-- Waiting gives the value that is there. -/
theorem recvWait_eq (ch : Broadcast α) (hasSender : Bool) (next : Nat) :
    (ch.recvWait hasSender next).1 = (ch.recv next).1 ∧
      (ch.recvWait hasSender next).2.bind Except.toOption = (ch.recv next).2.toOption := by
  unfold recvWait
  rcases ch.recv next with ⟨next', _ | _⟩
  · rename_i e
    cases e with
    | empty => cases hasSender <;> exact ⟨rfl, rfl⟩
    | lagged => exact ⟨rfl, rfl⟩
  · exact ⟨rfl, rfl⟩

end Broadcast

variable {α : Type}

/-- Send a value on the channels at several places, one after the other. -/
def sendAll (channels : List (Broadcast α)) (places : List Nat) (x : α) :
    List (Broadcast α) :=
  places.foldl (fun channels i => channels.modify i (Broadcast.send · x)) channels

theorem sendAll_length (channels : List (Broadcast α)) (places : List Nat) (x : α) :
    (sendAll channels places x).length = channels.length := by
  unfold sendAll
  induction places generalizing channels with
  | nil => rfl
  | cons i places ih => rw [List.foldl_cons, ih, List.length_modify]

/-- If the places are distinct, each of these channels gets the value once and all
others stay as they are. -/
theorem sendAll_getElem? {places : List Nat} (hnodup : places.Nodup)
    (channels : List (Broadcast α)) (x : α) (i : Nat) :
    (sendAll channels places x)[i]? =
      if i ∈ places then (channels[i]?).map (Broadcast.send · x) else channels[i]? := by
  unfold sendAll
  induction places generalizing channels with
  | nil => simp
  | cons j places ih =>
      rw [List.nodup_cons] at hnodup
      rw [List.foldl_cons, ih hnodup.2]
      by_cases hij : i = j
      · subst hij
        simp [hnodup.1]
      · have hother : (channels.modify j (Broadcast.send · x))[i]? = channels[i]? :=
          List.getElem?_modify_ne _ channels (Ne.symm hij)
        rw [hother]
        simp [hij]
