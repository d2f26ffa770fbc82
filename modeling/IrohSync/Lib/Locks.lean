import Mathlib.Data.Set.Basic

/-!
# Locks and deadlocks

Readers and writers of locks, and what a deadlock is: a set of tasks each of
which waits for a lock that another of them holds.  A queued writer makes even
readers wait for readers, so a task counts as waiting for a lock in whatever mode
it wants it and the other task holds it.

Main results:

- Theorem {lit}`Locks.not_deadlocked_of_rank`: there is no deadlock where every
  task that waits wants a lock above all locks that it holds.
-/

namespace Locks

/-- How a lock is taken. -/
inductive Mode where
  | read
  | write
deriving DecidableEq, Repr

/-- Two holders of one lock are at odds unless both read. -/
def Mode.conflicts : Mode → Mode → Bool
  | .read, .read => false
  | _, _ => true

variable {τ κ : Type} (holds : τ → List (κ × Mode)) (wants : τ → Option (κ × Mode))

/-- A task at one place waits for a lock that the task at another place holds. -/
def WaitsFor (tasks : List τ) (i j : Nat) : Prop :=
  i ≠ j ∧ ∃ t u, tasks[i]? = some t ∧ tasks[j]? = some u ∧
    ∃ lock mode mode', wants t = some (lock, mode) ∧ (lock, mode') ∈ holds u

/-- Some tasks wait for each other. -/
def Deadlocked (tasks : List τ) : Prop :=
  ∃ waiting : Set Nat, waiting.Nonempty ∧
    ∀ i ∈ waiting, ∃ j ∈ waiting, WaitsFor holds wants tasks i j

/-- The other tasks let a task take a lock. -/
def Free [DecidableEq κ] (others : List τ) (want : κ × Mode) : Bool :=
  others.all fun u => (holds u).all fun held => held.1 != want.1 || !held.2.conflicts want.2

variable {holds wants}

/-- Locks that are taken in the order of some rank. -/
theorem not_deadlocked_of_rank {tasks : List τ} (rank : κ → Nat) (bound : Nat)
    (hbound : ∀ lock, rank lock ≤ bound)
    (hrank : ∀ t ∈ tasks, ∀ lock mode, wants t = some (lock, mode) →
      ∀ held ∈ holds t, rank held.1 < rank lock) :
    ¬ Deadlocked holds wants tasks := by
  rintro ⟨waiting, ⟨i, hi⟩, hwaits⟩
  -- whoever holds the lock waits for one of higher rank
  have hclimb : ∀ n, ∀ i ∈ waiting, ∀ t lock mode, tasks[i]? = some t →
      wants t = some (lock, mode) → bound - rank lock = n → False := by
    intro n
    induction n using Nat.strong_induction_on with
    | _ n ih =>
        intro i hi t lock mode ht hwant hn
        rcases hwaits i hi with ⟨j, hj, -, t', u, ht', hu, lock', mode₁, mode₂, hwant', hheld⟩
        obtain rfl : t' = t := Option.some.inj (ht'.symm.trans ht)
        rw [hwant, Option.some.injEq, Prod.mk.injEq] at hwant'
        obtain ⟨rfl, -⟩ := hwant'
        rcases hwaits j hj with ⟨k, -, -, u', -, hu', -, lock'', mode₃, -, hwant'', -⟩
        obtain rfl : u' = u := Option.some.inj (hu'.symm.trans hu)
        have hlt : rank lock < rank lock'' :=
          hrank u' (List.mem_of_getElem? hu) lock'' mode₃ hwant'' _ hheld
        have hle := hbound lock''
        exact ih (bound - rank lock'') (by omega) j hj u' lock'' mode₃ hu hwant'' rfl
  rcases hwaits i hi with ⟨j, -, -, t, -, ht, -, lock, mode, -, hwant, -⟩
  exact hclimb _ i hi t lock mode ht hwant rfl

end Locks
