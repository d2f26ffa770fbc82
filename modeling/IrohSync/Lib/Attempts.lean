import Mathlib.Data.List.Basic

/-!
# Attempts in order

Alternatives are tried one after the other until an attempt succeeds.  What an attempt
does depends on a state, which it changes, and every attempt is logged.

Main results:

- Theorem {lit}`run_inOrder`: alternatives are tried in order.
- Theorem {lit}`run_stops`: no attempt follows a successful one.
- Theorems {lit}`succeeded_iff` and {lit}`run_all`: the run succeeds exactly if an attempt
  did, and otherwise has tried every alternative.
- Theorem {lit}`exists_attempt_iff`: which alternatives are reached.
-/

namespace Attempts

variable {σ κ ε : Type}

/-- How a run of attempts ended. -/
structure Outcome (σ κ ε : Type) where
  state : σ
  log : List (κ × Except ε Unit)
  succeeded : Bool

variable (attempt : σ → κ → σ × Except ε Unit)

/-- Try alternatives in order and stop at the first success. -/
def run : σ → List κ → Outcome σ κ ε
  | s, [] => ⟨s, [], false⟩
  | s, x :: xs =>
      match attempt s x with
      | (s, .ok ()) => ⟨s, [(x, .ok ())], true⟩
      | (s, .error e) =>
          let rest := run s xs
          { rest with log := (x, .error e) :: rest.log }

/-- An alternative with a property comes up before any other one succeeds. -/
def Reaches (P : κ → Prop) : σ → List κ → Prop
  | _, [] => False
  | s, x :: xs => P x ∨ ((attempt s x).2 ≠ .ok () ∧ Reaches P (attempt s x).1 xs)

variable {attempt}

/-- The first attempt succeeds. -/
theorem run_cons_ok {s s' : σ} {x : κ} (hok : attempt s x = (s', .ok ())) (xs : List κ) :
    run attempt s (x :: xs) = ⟨s', [(x, .ok ())], true⟩ := by
  rw [run, hok]

/-- The first attempt fails. -/
theorem run_cons_error {s s' : σ} {x : κ} {e : ε} (herror : attempt s x = (s', .error e))
    (xs : List κ) :
    run attempt s (x :: xs) =
      { run attempt s' xs with log := (x, .error e) :: (run attempt s' xs).log } := by
  rw [run, herror]

/-- Alternatives are tried in order. -/
theorem run_inOrder (s : σ) (xs : List κ) : (run attempt s xs).log.map Prod.fst <+: xs := by
  induction xs generalizing s with
  | nil => exact List.prefix_rfl
  | cons x xs ih =>
      rcases hattempt : attempt s x with ⟨s', _ | ⟨⟨⟩⟩⟩
      · rw [run_cons_error hattempt]
        exact List.cons_prefix_cons.mpr ⟨rfl, ih s'⟩
      · rw [run_cons_ok hattempt]
        exact List.cons_prefix_cons.mpr ⟨rfl, ⟨xs, rfl⟩⟩

/-- No attempt follows a successful one. -/
theorem run_stops {s : σ} {xs : List κ} {front back : List (κ × Except ε Unit)} {x : κ}
    (hlog : (run attempt s xs).log = front ++ (x, .ok ()) :: back) : back = [] := by
  induction xs generalizing s front with
  | nil => simp [run] at hlog
  | cons y ys ih =>
      rcases hattempt : attempt s y with ⟨s', e | ⟨⟨⟩⟩⟩
      · rw [run_cons_error hattempt] at hlog
        cases front with
        | nil => simp at hlog
        | cons entry front => exact ih (List.cons.inj hlog).2
      · rw [run_cons_ok hattempt] at hlog
        cases front with
        | nil => exact (List.cons.inj hlog).2.symm
        | cons entry front => simp at hlog

/-- A run succeeds exactly if an attempt did. -/
theorem succeeded_iff (s : σ) (xs : List κ) :
    (run attempt s xs).succeeded ↔ ∃ entry ∈ (run attempt s xs).log, entry.2 = .ok () := by
  induction xs generalizing s with
  | nil => simp [run]
  | cons x xs ih =>
      rcases hattempt : attempt s x with ⟨s', e | ⟨⟨⟩⟩⟩
      · rw [run_cons_error hattempt]
        simpa using ih s'
      · rw [run_cons_ok hattempt]
        simp

/-- A run that does not succeed has tried every alternative. -/
theorem run_all {s : σ} {xs : List κ} (hfailed : ¬ (run attempt s xs).succeeded) :
    (run attempt s xs).log.map Prod.fst = xs := by
  induction xs generalizing s with
  | nil => rfl
  | cons x xs ih =>
      rcases hattempt : attempt s x with ⟨s', e | ⟨⟨⟩⟩⟩
      · rw [run_cons_error hattempt] at hfailed ⊢
        rw [List.map_cons, ih hfailed]
      · rw [run_cons_ok hattempt] at hfailed
        exact absurd rfl hfailed

/-- An alternative with a property is tried exactly if it is reached. -/
theorem exists_attempt_iff (P : κ → Prop) (s : σ) (xs : List κ) :
    (∃ entry ∈ (run attempt s xs).log, P entry.1) ↔ Reaches attempt P s xs := by
  induction xs generalizing s with
  | nil => simp [run, Reaches]
  | cons x xs ih =>
      rcases hattempt : attempt s x with ⟨s', e | ⟨⟨⟩⟩⟩
      · rw [run_cons_error hattempt, Reaches, hattempt, ← ih s']
        simp
      · rw [run_cons_ok hattempt, Reaches, hattempt]
        simp

/-- The first alternative is reached. -/
theorem reaches_of_forall {P : κ → Prop} {xs : List κ} (hall : ∀ x ∈ xs, P x) (s : σ) :
    Reaches attempt P s xs ↔ xs ≠ [] := by
  cases xs with
  | nil => simp [Reaches]
  | cons x xs => simp [Reaches, hall x List.mem_cons_self]

end Attempts
