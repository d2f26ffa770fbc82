import Mathlib.Logic.Relation
import IrohSync.Lib.Framing

/-!
# Byte streams

One direction of a reliable connection: bytes arrive in the order in which they
were written, and after the writer has finished a reader that asks for more than
is left gets an end-of-file error.  Until then it blocks.

Main results:

- Theorems {lit}`ByteStream.readExact_frame` and {lit}`ByteStream.readExact_all`:
  the two reads over a frame.
- Theorem {lit}`Interleaving.invariant`: an invariant of both parties holds in
  every state that an interleaving of them reaches.
-/

namespace ByteStream

open FileIo Framing

/-! ## Streams -/

/-- The bytes in flight and whether the writer has finished. -/
structure Stream where
  bytes : Bytes
  closed : Bool
deriving DecidableEq, Repr

/-- A stream on which nothing was written yet. -/
def Stream.empty : Stream where
  bytes := []
  closed := false

/-- Write bytes. -/
def Stream.write (s : Stream) (bytes : Bytes) : Stream :=
  { s with bytes := s.bytes ++ bytes }

/-- Finish the stream. -/
def Stream.close (s : Stream) : Stream :=
  { s with closed := true }

/-- The outcome of a read. -/
inductive ReadOutcome where
  | blocked
  | eof
  | ok (bytes : Bytes) (rest : Stream)
deriving DecidableEq, Repr

/-- Read exactly so many bytes. -/
def Stream.readExact (s : Stream) (n : Nat) : ReadOutcome :=
  if n ≤ s.bytes.length then .ok (s.bytes.take n) { s with bytes := s.bytes.drop n }
  else if s.closed then .eof
  else .blocked

theorem readExact_of_le {s : Stream} {n : Nat} (hle : n ≤ s.bytes.length) :
    s.readExact n = .ok (s.bytes.take n) { s with bytes := s.bytes.drop n } := by
  rw [Stream.readExact, if_pos hle]

/-- A read of nothing but an open stream blocks. -/
theorem readExact_empty {n : Nat} (hn : 0 < n) : Stream.empty.readExact n = .blocked := by
  have hnot : ¬ n ≤ 0 := Nat.not_le.mpr hn
  simp [Stream.readExact, Stream.empty, hnot]

/-- The length of a frame is read first. -/
theorem readExact_frame (p : LengthPrefix) (body : Bytes) (closed : Bool) :
    Stream.readExact ⟨frame p body, closed⟩ 4 = .ok (p.write body.length) ⟨body, closed⟩ := by
  rw [readExact_of_le (by rw [frame_length]; omega), frame]
  simp only
  rw [← p.length_write body.length, List.take_left, List.drop_left]

/-- The body of a frame is read next. -/
theorem readExact_all (body : Bytes) (closed : Bool) :
    Stream.readExact ⟨body, closed⟩ body.length = .ok body ⟨[], closed⟩ := by
  rw [readExact_of_le (Nat.le_refl _)]
  simp

end ByteStream

/-! ## Two interleaved parties -/

namespace Interleaving

variable {σ : Type} (left right : σ → Option σ)

/-- Either party makes its next step; a party without a next step is blocked or
has ended. -/
def Step (s s' : σ) : Prop :=
  left s = some s' ∨ right s = some s'

/-- What a state can reach by any interleaving of the two parties. -/
def Reaches (s s' : σ) : Prop :=
  Relation.ReflTransGen (Step left right) s s'

variable {left right}

/-- An invariant that both parties keep holds in every state that is reached. -/
theorem invariant {inv : σ → Prop} (hleft : ∀ s s', inv s → left s = some s' → inv s')
    (hright : ∀ s s', inv s → right s = some s' → inv s') {s s' : σ} (hinit : inv s)
    (hreach : Reaches left right s s') : inv s' := by
  induction hreach with
  | refl => exact hinit
  | tail _ hstep ih =>
      rcases hstep with hstep | hstep
      · exact hleft _ _ ih hstep
      · exact hright _ _ ih hstep

/-- What is reached before a step of the one party is reached after it. -/
theorem Reaches.stepLeft {s s' : σ} (h : Reaches left right s s') (s'' : σ)
    (hstep : left s' = some s'') : Reaches left right s s'' :=
  Relation.ReflTransGen.tail h (Or.inl hstep)

/-- What is reached before a step of the other party is reached after it. -/
theorem Reaches.stepRight {s s' : σ} (h : Reaches left right s s') (s'' : σ)
    (hstep : right s' = some s'') : Reaches left right s s'' :=
  Relation.ReflTransGen.tail h (Or.inr hstep)

end Interleaving
