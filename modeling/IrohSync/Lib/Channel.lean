import Mathlib.Data.List.Basic

/-!
# Bounded channels

A first-in-first-out channel with a capacity.  Sending without waiting fails
only if the channel is full or its receiver was dropped; what is still queued
when the receiver goes is lost.

Main results:

- Theorems {lit}`Channel.trySend_of_lt` and {lit}`Channel.trySend_dropped`: the
  two outcomes that do not depend on timing.
- Theorems {lit}`Channel.trySend_of_accepts` and {lit}`Channel.trySend_refused`:
  what sending does in every state.
-/

/-- Values on their way to a receiver. -/
structure Channel (α : Type) where
  capacity : Nat
  queue : List α
  receiverAlive : Bool
deriving DecidableEq, Repr

namespace Channel

variable {α : Type}

/-- A channel with its receiver. -/
def new (capacity : Nat) : Channel α where
  capacity := capacity
  queue := []
  receiverAlive := true

/-- Why a value was not sent. -/
inductive TrySendError where
  | full
  | closed
deriving DecidableEq, Repr

/-- Send a value without waiting. -/
def trySend (ch : Channel α) (x : α) : Channel α × Except TrySendError Unit :=
  if !ch.receiverAlive then (ch, .error .closed)
  else if ch.capacity ≤ ch.queue.length then (ch, .error .full)
  else ({ ch with queue := ch.queue ++ [x] }, .ok ())

/-- Receive the oldest value, if there is one. -/
def recv (ch : Channel α) : Option (α × Channel α) :=
  match ch.queue with
  | [] => none
  | x :: rest => some (x, { ch with queue := rest })

/-- Drop the receiver and what it has not received. -/
def dropReceiver (ch : Channel α) : Channel α :=
  { ch with queue := [], receiverAlive := false }

/-- Close the channel; what is queued can still be received. -/
def close (ch : Channel α) : Channel α :=
  { ch with receiverAlive := false }

/-- No further value fits. -/
def Full (ch : Channel α) : Prop :=
  ch.capacity ≤ ch.queue.length

instance (ch : Channel α) : Decidable ch.Full :=
  inferInstanceAs (Decidable (ch.capacity ≤ ch.queue.length))

/-- A further value can be sent. -/
def Accepts (ch : Channel α) : Prop :=
  ch.receiverAlive = true ∧ ¬ ch.Full

instance (ch : Channel α) : Decidable ch.Accepts :=
  inferInstanceAs (Decidable (_ ∧ _))

/-- A live channel that is not full takes a value. -/
theorem trySend_of_lt {ch : Channel α} (halive : ch.receiverAlive = true) (hroom : ¬ ch.Full)
    (x : α) : ch.trySend x = ({ ch with queue := ch.queue ++ [x] }, .ok ()) := by
  rw [Full] at hroom
  simp [trySend, halive, hroom]

/-- A channel without a receiver takes nothing. -/
theorem trySend_dropped {ch : Channel α} (hdropped : ch.receiverAlive = false) (x : α) :
    ch.trySend x = (ch, .error .closed) := by
  simp [trySend, hdropped]

theorem trySend_of_accepts {ch : Channel α} (haccepts : ch.Accepts) (x : α) :
    ch.trySend x = ({ ch with queue := ch.queue ++ [x] }, .ok ()) :=
  trySend_of_lt haccepts.1 haccepts.2 x

/-- A channel that is closed or full stays as it is. -/
theorem trySend_refused {ch : Channel α} (hrefuses : ¬ ch.Accepts) (x : α) :
    ∃ e, ch.trySend x = (ch, .error e) := by
  cases halive : ch.receiverAlive with
  | false => exact ⟨.closed, trySend_dropped halive x⟩
  | true =>
      refine ⟨.full, ?_⟩
      have hfull : ch.Full := by
        by_contra hroom
        exact hrefuses ⟨halive, hroom⟩
      rw [Full] at hfull
      simp [trySend, halive, hfull]

end Channel
