import Mathlib.Data.Nat.Basic

/-!
# Watch channels

A watch channel keeps only its last value.  A receiver knows how many values it has seen; it
is told that something changed when there is a newer one, and also when the sender is gone.

Main results:

- Theorems {lit}`Watch.changed_send` and {lit}`Watch.changed_dropSender`: what a receiver is
  told about.
- Theorem {lit}`Watch.Later.changed`: what it is told about stays.
-/

/-- A channel with the number of values sent on it. -/
structure Watch where
  version : Nat
  senderAlive : Bool
deriving DecidableEq, Repr

namespace Watch

/-- A channel with its sender. -/
def new : Watch where
  version := 0
  senderAlive := true

/-- Send a value. -/
def send (ch : Watch) : Watch :=
  { ch with version := ch.version + 1 }

/-- Drop the sender. -/
def dropSender (ch : Watch) : Watch :=
  { ch with senderAlive := false }

/-- A receiver that subscribes now has seen all values. -/
def subscribe (ch : Watch) : Nat :=
  ch.version

/-- A receiver that waits for a change goes on. -/
def changed (ch : Watch) (seen : Nat) : Bool :=
  decide (seen < ch.version) || !ch.senderAlive

/-- A channel in some later state. -/
structure Later (ch ch' : Watch) : Prop where
  version : ch.version ≤ ch'.version
  senderAlive : ch'.senderAlive = true → ch.senderAlive = true

variable {ch ch' ch'' : Watch} {seen : Nat}

theorem later_refl (ch : Watch) : ch.Later ch :=
  ⟨Nat.le_refl _, id⟩

theorem later_send (ch : Watch) : ch.Later ch.send :=
  ⟨Nat.le_succ _, id⟩

theorem later_dropSender (ch : Watch) : ch.Later ch.dropSender :=
  ⟨Nat.le_refl _, fun halive => absurd halive Bool.false_ne_true⟩

theorem Later.trans (h : ch.Later ch') (h' : ch'.Later ch'') : ch.Later ch'' :=
  ⟨Nat.le_trans h.version h'.version, fun halive => h.senderAlive (h'.senderAlive halive)⟩

/-- Nothing has changed exactly if the receiver has seen all values and the sender is there. -/
theorem changed_eq_false_iff :
    ch.changed seen = false ↔ ch.version ≤ seen ∧ ch.senderAlive = true := by
  simp [changed]

theorem changed_subscribe (halive : ch.senderAlive = true) :
    ch.changed ch.subscribe = false :=
  changed_eq_false_iff.mpr ⟨Nat.le_refl _, halive⟩

theorem changed_send (hseen : seen ≤ ch.version) : ch.send.changed seen = true := by
  simp [changed, send, Nat.lt_succ_of_le hseen]

theorem changed_dropSender (ch : Watch) (seen : Nat) : ch.dropSender.changed seen = true := by
  simp [changed, dropSender]

/-- What has changed for a receiver has still changed later. -/
theorem Later.changed (h : ch.Later ch') (hchanged : ch.changed seen = true) :
    ch'.changed seen = true := by
  by_contra hsame
  rw [Bool.not_eq_true, changed_eq_false_iff] at hsame
  have hbefore : ch.changed seen = false :=
    changed_eq_false_iff.mpr ⟨Nat.le_trans h.version hsame.1, h.senderAlive hsame.2⟩
  exact absurd hchanged (by simp [hbefore])

end Watch
