import Mathlib.Algebra.Order.Ring.Nat
import IrohSync.Lib.Loop
import IrohSync.Lib.Machine

/-!
# Retrying an operation

A retry operation invokes what it is given until it succeeds or its policy allows no more
attempts.  The policy counts the attempts and lives on from one call to the next: a success
resets the count, and giving up leaves it where it is.

What an operation returns when it is invoked for the next time is a function of the number of
earlier invocations.  The delays between the attempts are left out; a policy without a maximum
may retry for good, so that a call is given the number of passes it may make.

Main results:

- Theorems {lit}`execute_succeeds` and {lit}`execute_exceeds`: how a call ends.
- Theorem {lit}`full_budget_iff`: in which sequences of calls each one gets its full number of
  attempts.
-/

namespace IrohSync

namespace Retry

open Loop Machine

/-! ## Policies -/

/-- Configuration for retry behavior; no maximum of retries is written as zero. -/
structure RetryConfig where
  maxRetries : UInt64
deriving DecidableEq, Repr

/-- The default configuration. -/
def RetryConfig.default : RetryConfig where
  maxRetries := 5

/-- A retry policy for connection attempts. -/
structure RetryPolicy where
  config : RetryConfig
  attempts : UInt64
deriving DecidableEq, Repr

namespace RetryPolicy

/-- Create a new retry policy. -/
def new (config : RetryConfig) : RetryPolicy where
  config := config
  attempts := 0

/-- Check if we should retry. -/
def shouldRetry (policy : RetryPolicy) : Bool :=
  if policy.config.maxRetries = 0 then true
  else policy.attempts < policy.config.maxRetries

/-- Record a retry attempt. -/
def recordAttempt (policy : RetryPolicy) : RetryPolicy :=
  { policy with attempts := policy.attempts + 1 }

/-- Record a successful operation. -/
def recordSuccess (policy : RetryPolicy) : RetryPolicy :=
  { policy with attempts := 0 }

end RetryPolicy

/-! ## Calls -/

/-- Error type for retry operations. -/
inductive RetryError (ε : Type) where
  | maxRetriesExceeded (attempts : UInt64) (lastError : ε)
  | cancelled
deriving DecidableEq, Repr

variable {ε τ : Type}

/-- What a call did: the policy it left, how often it invoked its operation, and the
result. -/
structure Execution (ε τ : Type) where
  policy : RetryPolicy
  invocations : Nat
  result : Except (RetryError ε) τ

/-- One pass: invoke the operation, and return its success, give up or count an attempt. -/
def pass (operation : Nat → Except ε τ) :
    RetryPolicy × Nat → Pass (RetryPolicy × Nat) (Execution ε τ)
  | (policy, i) =>
      match operation i with
      | .ok result => .done ⟨policy.recordSuccess, i + 1, .ok result⟩
      | .error e =>
          if !policy.shouldRetry then
            .done ⟨policy, i + 1, .error (.maxRetriesExceeded policy.attempts e)⟩
          else .next (policy.recordAttempt, i + 1)

/-- Execute an operation with retries, in at most the given number of passes. -/
def execute (passes : Nat) (policy : RetryPolicy) (operation : Nat → Except ε τ) :
    Option (Execution ε τ) :=
  runFor (pass operation) passes (policy, 0)

/-- One retry operation under a sequence of calls. -/
def retrying (passes : Nat) :
    Machine RetryPolicy (Nat → Except ε τ) (Option (Execution ε τ)) where
  next policy operation := ((execute passes policy operation).map Execution.policy).getD policy
  answer policy operation := execute passes policy operation

/-- A call got its full number of attempts: it invokes its operation until the first success,
at most once and as many times more as there may be retries, and returns that success or the
last error. -/
structure FullBudget (maxRetries : UInt64) (operation : Nat → Except ε τ)
    (call : Option (Execution ε τ)) : Prop where
  succeeds : ∀ k value, operation k = .ok value → (∀ i < k, ∃ e, operation i = .error e) →
    k ≤ maxRetries.toNat →
      ∃ policy, call = some ⟨policy, k + 1, .ok value⟩
  exceeds : ∀ e, (∀ i < maxRetries.toNat, ∃ e, operation i = .error e) →
    operation maxRetries.toNat = .error e →
      ∃ policy, call = some
        ⟨policy, maxRetries.toNat + 1, .error (.maxRetriesExceeded maxRetries e)⟩

/-! ## How a call ends -/

section Ends

variable {operation : Nat → Except ε τ} {policy : RetryPolicy}

/-- A policy that has counted so many attempts more. -/
def RetryPolicy.counting (policy : RetryPolicy) (k : Nat) : RetryPolicy :=
  { policy with attempts := UInt64.ofNat (policy.attempts.toNat + k) }

theorem counting_zero : policy.counting 0 = policy := by
  rw [RetryPolicy.counting, Nat.add_zero, UInt64.ofNat_toNat]

theorem recordAttempt_counting (k : Nat) :
    (policy.counting k).recordAttempt = policy.counting (k + 1) := by
  rw [RetryPolicy.recordAttempt, RetryPolicy.counting, RetryPolicy.counting, ← Nat.add_assoc,
    UInt64.ofNat_add (policy.attempts.toNat + k) 1]
  rfl

/-- A policy with a maximum retries as long as it has not counted so many attempts. -/
theorem shouldRetry_counting {k : Nat} (hbounded : policy.config.maxRetries ≠ 0)
    (hle : policy.attempts.toNat + k ≤ policy.config.maxRetries.toNat) :
    (policy.counting k).shouldRetry =
      decide (policy.attempts.toNat + k < policy.config.maxRetries.toNat) := by
  have hword := policy.config.maxRetries.toNat_lt
  have hcount : (UInt64.ofNat (policy.attempts.toNat + k)).toNat = policy.attempts.toNat + k :=
    UInt64.toNat_ofNat_of_lt' (by simp only [UInt64.size]; omega)
  rw [RetryPolicy.counting, RetryPolicy.shouldRetry, if_neg hbounded]
  simp only [UInt64.lt_iff_toNat_lt, hcount]

/-- Failures are followed by as many retries as are left. -/
theorem runFor_retries {k : Nat} (passes : Nat) (hbounded : policy.config.maxRetries ≠ 0)
    (hfails : ∀ i < k, ∃ e, operation i = .error e)
    (hleft : policy.attempts.toNat + k ≤ policy.config.maxRetries.toNat) :
    runFor (pass operation) (k + passes) (policy, 0) =
      runFor (pass operation) passes (policy.counting k, k) := by
  induction k generalizing passes with
  | zero => rw [counting_zero, Nat.zero_add]
  | succ k ih =>
      rcases hfails k (Nat.lt_succ_self k) with ⟨e, herror⟩
      have hearlier := ih (passes + 1) (fun i hi => hfails i (Nat.lt_succ_of_lt hi)) (by omega)
      have hretry : (policy.counting k).shouldRetry = true := by
        rw [shouldRetry_counting hbounded (by omega), decide_eq_true_iff]
        omega
      have hpass : pass operation (policy.counting k, k) =
          .next (policy.counting (k + 1), k + 1) := by
        simp only [pass, herror, hretry, Bool.not_true, Bool.false_eq_true, if_false,
          recordAttempt_counting]
      rw [Nat.add_right_comm, Nat.add_assoc, hearlier, runFor, hpass]

/-- A success that comes while retries are left ends the call. -/
theorem execute_succeeds {k : Nat} {value : τ} {passes : Nat}
    (hbounded : policy.config.maxRetries ≠ 0) (hfails : ∀ i < k, ∃ e, operation i = .error e)
    (hvalue : operation k = .ok value)
    (hleft : policy.attempts.toNat + k ≤ policy.config.maxRetries.toNat) (hpasses : k < passes) :
    execute passes policy operation = some ⟨policy.recordSuccess, k + 1, .ok value⟩ := by
  obtain ⟨rest, rfl⟩ := Nat.exists_eq_add_of_lt hpasses
  have hpass : pass operation (policy.counting k, k) =
      .done ⟨policy.recordSuccess, k + 1, .ok value⟩ := by
    simp only [pass, hvalue]
    rfl
  rw [execute, Nat.add_assoc, runFor_retries _ hbounded hfails hleft, runFor, hpass]

/-- After failures for all retries that are left the call gives up. -/
theorem execute_exceeds {k : Nat} {e : ε} {passes : Nat}
    (hbounded : policy.config.maxRetries ≠ 0) (hfails : ∀ i < k, ∃ e, operation i = .error e)
    (herror : operation k = .error e)
    (hleft : policy.attempts.toNat + k = policy.config.maxRetries.toNat) (hpasses : k < passes) :
    execute passes policy operation =
      some ⟨{ policy with attempts := policy.config.maxRetries }, k + 1,
        .error (.maxRetriesExceeded policy.config.maxRetries e)⟩ := by
  obtain ⟨rest, rfl⟩ := Nat.exists_eq_add_of_lt hpasses
  have hcounted : policy.counting k = { policy with attempts := policy.config.maxRetries } := by
    rw [RetryPolicy.counting, hleft, UInt64.ofNat_toNat]
  have hno : (policy.counting k).shouldRetry = false := by
    rw [shouldRetry_counting hbounded (Nat.le_of_eq hleft), decide_eq_false_iff_not]
    omega
  rw [hcounted] at hno
  have hpass : pass operation (policy.counting k, k) =
      .done ⟨{ policy with attempts := policy.config.maxRetries }, k + 1,
        .error (.maxRetriesExceeded policy.config.maxRetries e)⟩ := by
    simp only [pass, herror, hcounted, hno, Bool.not_false, if_true]
  rw [execute, Nat.add_assoc, runFor_retries _ hbounded hfails (Nat.le_of_eq hleft), runFor,
    hpass]

end Ends

/-! ## Budgets -/

section Budgets

variable {maxRetries : UInt64} {policy : RetryPolicy} {passes : Nat}

/-- Between calls a policy has counted nothing, or it has given up and has no retry left. -/
structure Settled (maxRetries : UInt64) (policy : RetryPolicy) : Prop where
  config : policy.config.maxRetries = maxRetries
  attempts : policy.attempts = 0 ∨ policy.attempts = maxRetries

/-- An operation succeeds for the first time after some failures, or it fails that often. -/
theorem first_success_or (operation : Nat → Except ε τ) (n : Nat) :
    (∃ k ≤ n, (∃ value, operation k = .ok value) ∧ ∀ i < k, ∃ e, operation i = .error e) ∨
      ∀ i ≤ n, ∃ e, operation i = .error e := by
  induction n with
  | zero =>
      cases hfirst : operation 0 with
      | ok value => exact Or.inl ⟨0, Nat.le_refl 0, ⟨value, hfirst⟩, by simp⟩
      | error e => exact Or.inr fun i hi => ⟨e, Nat.le_zero.mp hi ▸ hfirst⟩
  | succ n ih =>
      rcases ih with ⟨k, hk, hsuccess⟩ | hfails
      · exact Or.inl ⟨k, Nat.le_succ_of_le hk, hsuccess⟩
      · cases hlast : operation (n + 1) with
        | ok value =>
            exact Or.inl ⟨n + 1, Nat.le_refl _, ⟨value, hlast⟩,
              fun i hi => hfails i (Nat.le_of_lt_succ hi)⟩
        | error e =>
            refine Or.inr fun i hi => ?_
            rcases Nat.le_succ_iff.mp hi with hle | rfl
            · exact hfails i hle
            · exact ⟨e, hlast⟩

/-- A settled policy is settled after every call. -/
theorem Settled.next (h : Settled maxRetries policy) (hmax : maxRetries ≠ 0)
    (hpasses : maxRetries.toNat < passes) (operation : Nat → Except ε τ) :
    Settled maxRetries ((retrying passes).next policy operation) := by
  obtain rfl := h.config
  -- how many retries are left
  obtain ⟨left, hleft⟩ :
      ∃ left, policy.attempts.toNat + left = policy.config.maxRetries.toNat := by
    rcases h.attempts with hnone | hall
    · exact ⟨_, by rw [hnone, UInt64.toNat_zero, Nat.zero_add]⟩
    · exact ⟨0, by rw [hall, Nat.add_zero]⟩
  rcases first_success_or operation left with ⟨k, hk, ⟨value, hvalue⟩, hfails⟩ | hfails
  · have hlt : k < passes := by omega
    have hcall := execute_succeeds hmax hfails hvalue (by omega) hlt
    simp only [retrying, hcall]
    exact ⟨rfl, Or.inl rfl⟩
  · rcases hfails left (Nat.le_refl left) with ⟨e, herror⟩
    have hlt : left < passes := by omega
    have hcall := execute_exceeds hmax (fun i hi => hfails i (Nat.le_of_lt hi)) herror hleft hlt
    simp only [retrying, hcall]
    exact ⟨rfl, Or.inr rfl⟩

/-- A call gets its full number of attempts if none is counted, or the operation succeeds at
once. -/
theorem Settled.fullBudget (h : Settled maxRetries policy) (hmax : maxRetries ≠ 0)
    (hpasses : maxRetries.toNat < passes) {operation : Nat → Except ε τ}
    (hfresh : policy.attempts = 0 ∨ ∃ value, operation 0 = .ok value) :
    FullBudget maxRetries operation (execute passes policy operation) := by
  obtain rfl := h.config
  constructor
  · intro k value hvalue hfails hk
    rcases hfresh with hnone | ⟨value', hfirst⟩
    · exact ⟨_, execute_succeeds hmax hfails hvalue
        (by rw [hnone, UInt64.toNat_zero]; omega) (by omega)⟩
    · have hzero : k = 0 := by
        by_contra hne
        rcases hfails 0 (Nat.pos_of_ne_zero hne) with ⟨e, herror⟩
        rw [hfirst] at herror
        contradiction
      subst hzero
      refine ⟨_, execute_succeeds hmax hfails hvalue ?_ (by omega)⟩
      rcases h.attempts with hnone | hall
      · rw [hnone, UInt64.toNat_zero]
        exact Nat.zero_le _
      · rw [hall, Nat.add_zero]
  · intro e hfails herror
    rcases hfresh with hnone | ⟨value, hfirst⟩
    · exact ⟨_, execute_exceeds hmax hfails herror
        (by rw [hnone, UInt64.toNat_zero, Nat.zero_add]) hpasses⟩
    · have hpos : 0 < policy.config.maxRetries.toNat :=
        Nat.pos_of_ne_zero fun hzero => hmax (UInt64.toNat_inj.mp hzero)
      rcases hfails 0 hpos with ⟨e', herror'⟩
      rw [hfirst] at herror'
      contradiction

/-- A call that begins with no retry left and fails at once does not get it. -/
theorem not_fullBudget_of_failure (hmax : policy.config.maxRetries ≠ 0) (hpasses : 0 < passes)
    {operation : Nat → Except ε τ} {e : ε}
    (hall : policy.attempts = policy.config.maxRetries) (hfirst : operation 0 = .error e) :
    ¬ FullBudget policy.config.maxRetries operation (execute passes policy operation) := by
  intro hfull
  have hpos : 0 < policy.config.maxRetries.toNat :=
    Nat.pos_of_ne_zero fun hzero => hmax (UInt64.toNat_inj.mp hzero)
  -- the first failure already ends the call
  have hcall := execute_exceeds hmax (by simp) hfirst (by rw [hall, Nat.add_zero]) hpasses
  rcases first_success_or operation policy.config.maxRetries.toNat with
    ⟨k, hk, ⟨value, hvalue⟩, hfails⟩ | hfails
  · rcases hfull.succeeds k value hvalue hfails hk with ⟨_, hcall'⟩
    rw [hcall] at hcall'
    simp at hcall'
  · rcases hfails _ (Nat.le_refl _) with ⟨e', herror'⟩
    rcases hfull.exceeds e' (fun i hi => hfails i (Nat.le_of_lt hi)) herror' with ⟨_, hcall'⟩
    rw [hcall, Option.some.injEq, Execution.mk.injEq] at hcall'
    omega

/-- A call of a settled policy gets its full number of attempts exactly if none is counted, or
the operation succeeds at once. -/
theorem Settled.fullBudget_iff (h : Settled maxRetries policy) (hmax : maxRetries ≠ 0)
    (hpasses : maxRetries.toNat < passes) (operation : Nat → Except ε τ) :
    FullBudget maxRetries operation (execute passes policy operation) ↔
      policy.attempts = 0 ∨ ∃ value, operation 0 = .ok value := by
  refine ⟨fun hfull => ?_, h.fullBudget hmax hpasses⟩
  obtain rfl := h.config
  rcases h.attempts with hnone | hall
  · exact Or.inl hnone
  · cases hfirst : operation 0 with
    | ok value => exact Or.inr ⟨value, rfl⟩
    | error e =>
        have hpos : 0 < passes := Nat.lt_of_le_of_lt (Nat.zero_le _) hpasses
        exact absurd hfull (not_fullBudget_of_failure hmax hpos hall hfirst)

end Budgets

/-- In a sequence of calls of one retry operation with a maximum of retries each call gets
its full number of attempts exactly if each one comes when no attempts are counted, or invokes
an operation that succeeds at once. -/
theorem full_budget_iff (maxRetries : UInt64) (hmax : maxRetries ≠ 0) (passes : Nat)
    (hpasses : maxRetries.toNat < passes) (operations : List (Nat → Except ε τ)) :
    (retrying passes).Along (fun policy operation =>
        FullBudget maxRetries operation (execute passes policy operation))
        (.new ⟨maxRetries⟩) operations ↔
      (retrying passes).Along (fun policy operation =>
        policy.attempts = 0 ∨ ∃ value, operation 0 = .ok value)
        (.new ⟨maxRetries⟩) operations :=
  along_iff (I := Settled maxRetries) (fun _ operation h _ => h.next hmax hpasses operation)
    (fun _ operation h => h.fullBudget_iff hmax hpasses operation) ⟨rfl, Or.inl rfl⟩ operations

/-- The criterion for two calls, the first of which succeeds after a failure. -/
theorem full_budget_iff_sample :
    (retrying 6).Along (fun policy operation =>
        FullBudget 5 operation (execute 6 policy operation)) (.new .default)
        [fun i => if i = 1 then .ok 7 else .error "refused", fun _ => .error "refused"] ↔
      (retrying 6).Along (fun policy operation =>
        policy.attempts = 0 ∨ ∃ value, operation 0 = .ok value) (.new .default)
        [fun i => if i = 1 then .ok 7 else .error "refused", fun _ => .error "refused"] :=
  full_budget_iff 5 (by decide) 6 (by decide)
    [fun i => if i = 1 then .ok 7 else .error "refused", fun _ => .error "refused"]

/-- Two calls of an operation that always fails: the second call does not retry. -/
theorem not_fullBudget_exhausted :
    ¬ (retrying 6).Along (fun policy (operation : Nat → Except String Nat) =>
      FullBudget 5 operation (execute 6 policy operation)) (.new .default)
      [fun _ => .error "refused", fun _ => .error "refused"] := by
  intro halong
  rcases halong.2.1.exceeds "refused" (fun _ _ => ⟨_, rfl⟩) rfl with ⟨policy, hcall⟩
  have hinvocations : some 1 = some 6 := congrArg (Option.map Execution.invocations) hcall
  exact absurd hinvocations (by decide)

end Retry

end IrohSync
