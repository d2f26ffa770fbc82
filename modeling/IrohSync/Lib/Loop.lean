import Mathlib.Logic.Basic

/-!
# Bounded loops

A `loop { ... break ... }` is given by one pass through its body together with
a measure that every pass which continues makes smaller.  The measure makes the
loop a total, executable function, and the equations {lit}`Body.run_next` and
{lit}`Body.run_done` are the whole interface: no proof about a particular loop
mentions fuel.

Main results:

- Theorems {lit}`Body.run_next` and {lit}`Body.run_done`: the unrolling
  equations of a loop.
- Theorem {lit}`Body.run_invariant`: what every pass preserves holds of the
  result.
-/

namespace Loop

variable {σ ρ : Type}

/-- What one pass through a loop body decides. -/
inductive Pass (σ ρ : Type) where
  | next (state : σ)
  | done (result : ρ)
deriving Repr

/-- Run a loop body for at most the given number of passes. -/
def runFor (pass : σ → Pass σ ρ) : Nat → σ → Option ρ
  | 0, _ => none
  | fuel + 1, state =>
      match pass state with
      | .done result => some result
      | .next state' => runFor pass fuel state'

/-- A loop body together with the measure that proves its termination. -/
structure Body (σ ρ : Type) where
  pass : σ → Pass σ ρ
  measure : σ → Nat
  decreases : ∀ {state state'}, pass state = .next state' → measure state' < measure state

/-- Enough passes always reach a result. -/
theorem Body.runFor_isSome (body : Body σ ρ) {fuel : Nat} {state : σ}
    (hfuel : body.measure state < fuel) :
    (runFor body.pass fuel state).isSome := by
  induction fuel generalizing state with
  | zero => omega
  | succ fuel ih =>
      cases hpass : body.pass state with
      | done result => simp [runFor, hpass]
      | next state' =>
          have hlt := body.decreases hpass
          simp only [runFor, hpass]
          exact ih (by omega)

/-- More passes than needed do not change the result. -/
theorem runFor_mono {pass : σ → Pass σ ρ} {fuel fuel' : Nat} {state : σ} {result : ρ}
    (hrun : runFor pass fuel state = some result) (hle : fuel ≤ fuel') :
    runFor pass fuel' state = some result := by
  induction fuel generalizing fuel' state with
  | zero => simp [runFor] at hrun
  | succ fuel ih =>
      cases fuel' with
      | zero => omega
      | succ fuel' =>
          cases hpass : pass state with
          | done r => simpa [runFor, hpass] using hrun
          | next state' =>
              simp only [runFor, hpass] at hrun ⊢
              exact ih hrun (by omega)

/-- Run a loop to its end. -/
def Body.run (body : Body σ ρ) (state : σ) : ρ :=
  (runFor body.pass (body.measure state + 1) state).get
    (body.runFor_isSome (Nat.lt_succ_self _))

private theorem Body.runFor_eq_run (body : Body σ ρ) (state : σ) :
    runFor body.pass (body.measure state + 1) state = some (body.run state) :=
  (Option.some_get _).symm

/-- A pass that breaks gives the result of the loop. -/
theorem Body.run_done (body : Body σ ρ) {state : σ} (result : ρ)
    (hpass : body.pass state = .done result) : body.run state = result := by
  have hrun := body.runFor_eq_run state
  simp only [runFor, hpass, Option.some.injEq] at hrun
  exact hrun.symm

/-- A pass that continues leaves the result to the rest of the loop. -/
theorem Body.run_next (body : Body σ ρ) {state : σ} (state' : σ)
    (hpass : body.pass state = .next state') : body.run state = body.run state' := by
  have hrun := body.runFor_eq_run state
  simp only [runFor, hpass] at hrun
  have hrest := runFor_mono (body.runFor_eq_run state') (body.decreases hpass)
  rw [hrest] at hrun
  exact (Option.some.inj hrun).symm

/-- The invariant rule: a property that every pass preserves, and that gives
the postcondition where the loop breaks, gives the postcondition of the run. -/
theorem Body.run_invariant (body : Body σ ρ) (I : σ → Prop) (Q : ρ → Prop)
    (hnext : ∀ state state', I state → body.pass state = .next state' → I state')
    (hdone : ∀ state result, I state → body.pass state = .done result → Q result)
    {state : σ} (hI : I state) : Q (body.run state) := by
  induction hmeasure : body.measure state using Nat.strongRecOn
      generalizing state with
  | _ n ih =>
      cases hpass : body.pass state with
      | done result =>
          rw [body.run_done result hpass]
          exact hdone state result hI hpass
      | next state' =>
          have hlt := body.decreases hpass
          rw [body.run_next state' hpass]
          exact ih _ (hmeasure ▸ hlt) (hnext state state' hI hpass) rfl

end Loop
