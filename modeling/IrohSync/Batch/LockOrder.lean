import IrohSync.Lib.Locks
import IrohSync.Lib.Machine
import IrohSync.Lib.Turns
import IrohSync.Batch.Batcher

/-!
# The locks of the batcher

The calls of the batcher at the granularity of single lock acquisitions.  A flush
holds the pending changes while it takes the batch start; the age check of the
background task holds the batch start while it takes the pending changes.  All
other stages take a lock with none in hand.

Main results:

- Theorem {lit}`deadlocked_iff`: there is a deadlock exactly if a flush and an age
  check are both at their second lock.
- Theorem {lit}`deadlock_free_iff`: which interleavings reach no deadlock.
- Theorem {lit}`deadlocked_run`: a deadlock is never resolved.
- Theorems {lit}`Stage.alone_add`, {lit}`Stage.alone_forceFlush` and
  {lit}`Stage.alone_age`: the stages of a call put together are its operation.
-/

namespace IrohSync

namespace Batch

open Machine Locks

/-! ## Stages and their locks -/

/-- The locks of a batcher. -/
inductive Lock where
  | pending
  | batchStart
  | sequence
deriving DecidableEq, Repr

/-- A stage of a call: what it does in one scope of a lock. -/
inductive Stage where
  | add (change : Change)
  | mark (change : Change)
  | push (change : Change)
  | check
  | flush
  | reset
  | take
  | draw (changes : List Change)
  | send (batch : ChangeBatch)
  | age
  | count
  | pendingCount
deriving DecidableEq, Repr

/-- The lock that a stage takes first. -/
def Stage.lock : Stage → Option (Lock × Mode)
  | .add _ => none
  | .mark _ => some (.batchStart, .write)
  | .push _ => some (.pending, .write)
  | .check => some (.pending, .read)
  | .flush => some (.pending, .write)
  | .reset => some (.batchStart, .write)
  | .take => none
  | .draw _ => some (.sequence, .write)
  | .send _ => none
  | .age => some (.batchStart, .read)
  | .count => some (.pending, .read)
  | .pendingCount => some (.pending, .read)

/-- The locks that a call still holds from earlier stages. -/
def Stage.outer : Stage → List (Lock × Mode)
  | .reset => [(.pending, .write)]
  | .take => [(.pending, .write)]
  | .count => [(.batchStart, .read)]
  | _ => []

/-- The batch start is set and old enough. -/
def ChangeBatcher.expired (b : ChangeBatcher) (now : Instant) : Bool :=
  match b.batchStart with
  | some start => b.config.maxBatchAge ≤ now - start
  | none => false

/-- What a stage does once it has its lock: the batcher after it and the next stage. -/
def Stage.body (b : ChangeBatcher) (now : Instant) : Stage → ChangeBatcher × Option Stage
  | .add change =>
      let b := if b.taskHasCrashed then b.tryRestartTask else b
      (b, some (if !b.config.enabled then .draw [change] else .mark change))
  | .mark change => (b.markStart now, some (.push change))
  | .push change => (b.push change, some .check)
  | .check => (b, if b.shouldFlushSize then some .flush else none)
  | .flush => (b, if b.pending.isEmpty then none else some .reset)
  | .reset => ({ b with batchStart := none }, some .take)
  | .take => ({ b with pending := [] }, some (.draw b.pending))
  | .draw changes =>
      let (b, seq) := b.drawSequence
      (b, some (.send (ChangeBatch.new changes seq now)))
  | .send batch => ((b.send batch).1, none)
  | .age => (b, if b.expired now then some .count else none)
  | .count => (b, if 0 < b.pendingCount then some .flush else none)
  | .pendingCount => (b, none)

/-! ## A call that nothing interrupts -/

/-- The batcher after at most so many stages of a call. -/
def Stage.alone (now : Instant) : Nat → ChangeBatcher → Stage → ChangeBatcher
  | 0, b, _ => b
  | n + 1, b, stage =>
      match stage.body b now with
      | (b, none) => b
      | (b, some next) => next.alone now n b

theorem Stage.alone_forceFlush (b : ChangeBatcher) (now : Instant) :
    Stage.flush.alone now 5 b = b.forceFlush now := by
  by_cases hpending : b.pending = []
  · simp [alone, body, ChangeBatcher.forceFlush, ChangeBatcher.flush_nil hpending, hpending]
  · rw [ChangeBatcher.forceFlush, ChangeBatcher.flush_of_ne hpending]
    simp only [alone, body, List.isEmpty_iff, hpending, if_false]
    rfl

theorem Stage.alone_age (b : ChangeBatcher) (now : Instant) :
    Stage.age.alone now 7 b = b.ageTick now := by
  have hcheck : b.ageCheck now = (b.expired now && decide (0 < b.pendingCount)) := by
    unfold ChangeBatcher.ageCheck ChangeBatcher.expired
    cases b.batchStart <;> rfl
  rw [ChangeBatcher.ageTick, hcheck]
  unfold alone body
  cases b.expired now with
  | false => rfl
  | true =>
      unfold alone body
      by_cases hcount : 0 < b.pendingCount
      · simp only [hcount, decide_true, Bool.and_self, if_true]
        exact alone_forceFlush b now
      · simp [hcount]

theorem Stage.alone_add (b : ChangeBatcher) (c : Change) (now : Instant) :
    (Stage.add c).alone now 9 b = (b.add c now).1 := by
  have hbody : (Stage.add c).body b now =
      (b.checked, some (if !b.checked.config.enabled then draw [c] else mark c)) :=
    rfl
  rw [alone, hbody, ChangeBatcher.checked_config]
  cases henabled : b.config.enabled with
  | false =>
      rw [ChangeBatcher.add_disabled henabled, ← ChangeBatcher.checked_sequence]
      rfl
  | true =>
      rw [ChangeBatcher.add_enabled henabled]
      change Stage.check.alone now 6 (b.pushed c now) = _
      unfold ChangeBatcher.checkFlush alone body
      cases (b.pushed c now).shouldFlushSize with
      | false => rfl
      | true => exact alone_forceFlush (b.pushed c now) now

/-! ## Calls -/

/-- A call at a stage, before or after it got the lock of the stage. -/
structure Caller where
  stage : Stage
  entered : Bool
deriving DecidableEq, Repr

/-- A call that comes to a stage. -/
def Stage.arrive (stage : Stage) : Caller where
  stage := stage
  entered := false

/-- The locks that a call holds. -/
def Caller.holds (t : Caller) : List (Lock × Mode) :=
  if t.entered then t.stage.outer ++ t.stage.lock.toList else t.stage.outer

/-- The lock that a call wants. -/
def Caller.wants (t : Caller) : Option (Lock × Mode) :=
  if t.entered then none else t.stage.lock

/-! ## Interleavings -/

/-- A batcher and the calls in progress. -/
structure LockedBatcher where
  batcher : ChangeBatcher
  tasks : List Caller

/-- A call begins, or a call in progress does one thing: it takes the lock it wants
if the others let it, or goes through its stage. -/
inductive LockTurn where
  | add (change : Change)
  | forceFlush
  | pendingCount
  | age
  | step (i : Nat) (now : Instant)

/-- The state before the first call. -/
def LockedBatcher.start (b : ChangeBatcher) : LockedBatcher where
  batcher := b
  tasks := []

/-- A call that begins. -/
def LockedBatcher.begin (s : LockedBatcher) (stage : Stage) : LockedBatcher :=
  { s with tasks := s.tasks ++ [stage.arrive] }

/-- The state after one step of the call at a place. -/
def LockedBatcher.step (s : LockedBatcher) (i : Nat) (t : Caller) (now : Instant) :
    LockedBatcher :=
  match t.wants with
  | some want =>
      if Free Caller.holds (s.tasks.eraseIdx i) want then
        { s with tasks := s.tasks.set i { t with entered := true } }
      else s
  | none =>
      { batcher := (t.stage.body s.batcher now).1
        tasks := Turns.advance s.tasks i ((t.stage.body s.batcher now).2.map Stage.arrive) }

/-- The state after a turn. -/
def LockedBatcher.next (s : LockedBatcher) : LockTurn → LockedBatcher
  | .add change => s.begin (.add change)
  | .forceFlush => s.begin .flush
  | .pendingCount => s.begin .pendingCount
  | .age => s.begin .age
  | .step i now =>
      match s.tasks[i]? with
      | none => s
      | some t => s.step i t now

/-- The interleavings of any number of calls. -/
def lockedBatcher : Machine LockedBatcher LockTurn Unit where
  next := LockedBatcher.next
  answer _ _ := ()

/-- Calls in progress wait for each other. -/
def LockedBatcher.Deadlocked (s : LockedBatcher) : Prop :=
  Locks.Deadlocked Caller.holds Caller.wants s.tasks

/-- A flush that found changes goes on to the batch start only while no age check
is waiting for the pending changes, and an age check that found the batch start
old enough goes on to the pending changes only while no flush is waiting for the
batch start. -/
def Untangled (s : LockedBatcher) : LockTurn → Prop
  | .step i now => ∀ t ∈ s.tasks[i]?, t.entered = true →
      (t.stage = .flush → s.batcher.pending ≠ [] → Stage.count.arrive ∉ s.tasks) ∧
      (t.stage = .age → s.batcher.expired now = true → Stage.reset.arrive ∉ s.tasks)
  | _ => True

/-! ## Deadlocks -/

/-- A flush and an age check are both at their second lock. -/
def Inverted (tasks : List Caller) : Prop :=
  Stage.reset.arrive ∈ tasks ∧ Stage.count.arrive ∈ tasks

/-- Without an age check at its second lock, pending comes before the batch start. -/
def flushRank : Lock → Nat
  | .pending => 0
  | .batchStart => 1
  | .sequence => 2

/-- Without a flush at its second lock, the batch start comes before pending. -/
def ageRank : Lock → Nat
  | .batchStart => 0
  | .pending => 1
  | .sequence => 2

/-- Only flushes and age checks at their second lock hold a lock while they wait. -/
theorem Caller.eq_of_waits {t : Caller} {lock : Lock} {mode : Mode} {held : Lock × Mode}
    (hwants : t.wants = some (lock, mode)) (hheld : held ∈ t.holds) :
    (t = Stage.reset.arrive ∧ lock = .batchStart ∧ held.1 = .pending) ∨
      (t = Stage.count.arrive ∧ lock = .pending ∧ held.1 = .batchStart) := by
  rcases t with ⟨stage, entered⟩
  cases entered with
  | true => simp [wants] at hwants
  | false =>
      cases stage with
      | reset =>
          simp only [wants, Stage.lock, Bool.false_eq_true, if_false, Option.some.injEq,
            Prod.mk.injEq] at hwants
          simp only [holds, Stage.outer, Bool.false_eq_true, if_false,
            List.mem_singleton] at hheld
          exact Or.inl ⟨rfl, hwants.1.symm, by rw [hheld]⟩
      | count =>
          simp only [wants, Stage.lock, Bool.false_eq_true, if_false, Option.some.injEq,
            Prod.mk.injEq] at hwants
          simp only [holds, Stage.outer, Bool.false_eq_true, if_false,
            List.mem_singleton] at hheld
          exact Or.inr ⟨rfl, hwants.1.symm, by rw [hheld]⟩
      | take => simp [wants, Stage.lock] at hwants
      | _ => simp [holds, Stage.outer] at hheld

theorem deadlocked_iff (tasks : List Caller) :
    Locks.Deadlocked Caller.holds Caller.wants tasks ↔ Inverted tasks := by
  constructor
  · intro hdeadlocked
    by_contra hinverted
    rw [Inverted, not_and_or] at hinverted
    revert hdeadlocked
    rcases hinverted with hreset | hcount
    · apply not_deadlocked_of_rank ageRank 2 (by intro lock; cases lock <;> decide)
      intro t ht lock mode hwants held hheld
      rcases Caller.eq_of_waits hwants hheld with ⟨rfl, _, _⟩ | ⟨_, hlock, hheld'⟩
      · contradiction
      · rw [hlock, hheld']
        exact Nat.zero_lt_one
    · apply not_deadlocked_of_rank flushRank 2 (by intro lock; cases lock <;> decide)
      intro t ht lock mode hwants held hheld
      rcases Caller.eq_of_waits hwants hheld with ⟨_, hlock, hheld'⟩ | ⟨rfl, _, _⟩
      · rw [hlock, hheld']
        exact Nat.zero_lt_one
      · contradiction
  · rintro ⟨hreset, hcount⟩
    rcases List.getElem?_of_mem hreset with ⟨i, hi⟩
    rcases List.getElem?_of_mem hcount with ⟨j, hj⟩
    have hne : i ≠ j := by
      rintro rfl
      rw [hi] at hj
      exact absurd hj (by decide)
    refine ⟨{i, j}, ⟨i, Or.inl rfl⟩, ?_⟩
    rintro k (rfl | rfl)
    · exact ⟨j, Or.inr rfl, hne, _, _, hi, hj, .batchStart, .write, .read, rfl, by decide⟩
    · exact ⟨i, Or.inl rfl, hne.symm, _, _, hj, hi, .pending, .read, .write, rfl, by decide⟩

/-! ## Steps -/

section Steps

variable {s : LockedBatcher}

/-- A call that arrives at its second lock was already there before it takes a lock. -/
theorem mem_of_mem_set {i : Nat} {t : Caller} {stage : Stage}
    (hmem : stage.arrive ∈ s.tasks.set i { t with entered := true }) :
    stage.arrive ∈ s.tasks := by
  rcases List.mem_or_eq_of_mem_set hmem with hold | hnew
  · exact hold
  · exact absurd (congrArg Caller.entered hnew) Bool.false_ne_true

/-- The stage after a flush has looked at the pending changes. -/
theorem Stage.body_eq_reset_iff {b : ChangeBatcher} {now : Instant} {stage : Stage} :
    (stage.body b now).2 = some .reset ↔ stage = .flush ∧ b.pending ≠ [] := by
  cases stage with
  | add c =>
      change some (if !b.checked.config.enabled then draw [c] else mark c) = some .reset ↔ _
      cases b.checked.config.enabled <;> simp
  | _ => simp [body]

/-- The stage after the age check has looked at the batch start. -/
theorem Stage.body_eq_count_iff {b : ChangeBatcher} {now : Instant} {stage : Stage} :
    (stage.body b now).2 = some .count ↔ stage = .age ∧ b.expired now = true := by
  cases stage with
  | add c =>
      change some (if !b.checked.config.enabled then draw [c] else mark c) = some .count ↔ _
      cases b.checked.config.enabled <;> simp
  | _ => simp [body]

theorem arrive_injective {stage stage' : Stage} (h : stage.arrive = stage'.arrive) :
    stage = stage' :=
  congrArg Caller.stage h

/-- A call that goes through its stage arrives at its next one. -/
theorem mem_step_iff (stage : Stage) (now : Instant) {i : Nat} {t : Caller}
    (ht : s.tasks[i]? = some t) (hwants : t.wants = none) (hne : stage.lock ≠ none) :
    stage.arrive ∈ (s.step i t now).tasks ↔
      stage.arrive ∈ s.tasks ∨ (t.stage.body s.batcher now).2 = some stage := by
  have htasks : (s.step i t now).tasks =
      Turns.advance s.tasks i ((t.stage.body s.batcher now).2.map Stage.arrive) := by
    rw [LockedBatcher.step, hwants]
  rw [htasks]
  constructor
  · intro hmem
    rcases Turns.mem_advance hmem with hold | hrest
    · exact Or.inl hold
    · rcases Option.map_eq_some_iff.mp hrest with ⟨stage', hstage', harrive⟩
      rw [arrive_injective harrive] at hstage'
      exact Or.inr hstage'
  · rintro (hold | hrest)
    · refine Turns.mem_advance_of_ne ht hold ?_
      rintro rfl
      exact hne hwants
    · rw [hrest]
      exact Turns.mem_advance_rest

/-- A call that wants no lock and comes to a flush or an age check has its lock. -/
theorem Caller.entered_of_wants {t : Caller} (hwants : t.wants = none)
    (hlock : t.stage.lock ≠ none) : t.entered = true := by
  cases hentered : t.entered with
  | true => rfl
  | false =>
      rw [wants, hentered] at hwants
      exact absurd hwants hlock

theorem Caller.entered_of_wants_some {t : Caller} {want : Lock × Mode}
    (hwants : t.wants = some want) : t.entered = false := by
  cases hentered : t.entered with
  | false => rfl
  | true => simp [wants, hentered] at hwants

/-- A call that takes its lock, or waits for it, arrives nowhere. -/
theorem mem_of_mem_step {i : Nat} {t : Caller} {now : Instant} {want : Lock × Mode}
    {stage : Stage} (hwants : t.wants = some want)
    (hmem : stage.arrive ∈ (s.step i t now).tasks) : stage.arrive ∈ s.tasks := by
  simp only [LockedBatcher.step, hwants] at hmem
  split at hmem
  · exact mem_of_mem_set hmem
  · exact hmem

/-- What a step makes of calls at their second locks. -/
theorem inverted_next_iff (hclear : ¬ Inverted s.tasks) (turn : LockTurn) :
    ¬ Inverted (s.next turn).tasks ↔ Untangled s turn := by
  have hbegin : ∀ stage : Stage, stage ≠ .reset → stage ≠ .count →
      ¬ Inverted (s.begin stage).tasks := by
    intro stage hreset hcount ⟨hmem, hmem'⟩
    refine hclear ⟨?_, ?_⟩
    · exact (List.mem_append.mp hmem).resolve_right fun h =>
        hreset (arrive_injective (List.mem_singleton.mp h)).symm
    · exact (List.mem_append.mp hmem').resolve_right fun h =>
        hcount (arrive_injective (List.mem_singleton.mp h)).symm
  cases turn with
  | add c => exact iff_of_true (hbegin _ nofun nofun) trivial
  | forceFlush => exact iff_of_true (hbegin _ nofun nofun) trivial
  | pendingCount => exact iff_of_true (hbegin _ nofun nofun) trivial
  | age => exact iff_of_true (hbegin _ nofun nofun) trivial
  | step i now =>
      rw [LockedBatcher.next, Untangled]
      cases ht : s.tasks[i]? with
      | none => simpa using hclear
      | some t =>
          simp only [Option.mem_some_iff, forall_eq']
          cases hwants : t.wants with
          | some want =>
              refine iff_of_true ?_ (by simp [Caller.entered_of_wants_some hwants])
              exact fun h => hclear ⟨mem_of_mem_step hwants h.1, mem_of_mem_step hwants h.2⟩
          | none =>
              have hreset := mem_step_iff .reset now ht hwants nofun
              have hcount := mem_step_iff .count now ht hwants nofun
              rw [Stage.body_eq_reset_iff] at hreset
              rw [Stage.body_eq_count_iff] at hcount
              constructor
              · intro hnext _
                refine ⟨fun hstage hpending hmem => ?_, fun hstage hexpired hmem => ?_⟩
                · exact hnext ⟨hreset.mpr (Or.inr ⟨hstage, hpending⟩), hcount.mpr (Or.inl hmem)⟩
                · exact hnext ⟨hreset.mpr (Or.inl hmem), hcount.mpr (Or.inr ⟨hstage, hexpired⟩)⟩
              · rintro huntangled ⟨hmem, hmem'⟩
                rcases hreset.mp hmem with hold | ⟨hflush, hpending⟩
                · rcases hcount.mp hmem' with hold' | ⟨hage, hexpired⟩
                  · exact hclear ⟨hold, hold'⟩
                  · have hentered := Caller.entered_of_wants hwants (by rw [hage]; nofun)
                    exact (huntangled hentered).2 hage hexpired hold
                · have hentered := Caller.entered_of_wants hwants (by rw [hflush]; nofun)
                  rcases hcount.mp hmem' with hold' | ⟨hage, _⟩
                  · exact (huntangled hentered).1 hflush hpending hold'
                  · rw [hflush] at hage
                    contradiction

/-- The calls at their second locks block each other for good. -/
theorem inverted_next (h : Inverted s.tasks) (turn : LockTurn) :
    Inverted (s.next turn).tasks := by
  have hbegin : ∀ stage, Inverted (s.begin stage).tasks := fun stage =>
    ⟨List.mem_append_left _ h.1, List.mem_append_left _ h.2⟩
  cases turn with
  | add c => exact hbegin _
  | forceFlush => exact hbegin _
  | pendingCount => exact hbegin _
  | age => exact hbegin _
  | step i now =>
      rw [LockedBatcher.next]
      cases ht : s.tasks[i]? with
      | none => exact h
      | some t =>
          cases hwants : t.wants with
          | none =>
              exact ⟨(mem_step_iff .reset now ht hwants nofun).mpr (Or.inl h.1),
                (mem_step_iff .count now ht hwants nofun).mpr (Or.inl h.2)⟩
          | some want =>
              simp only [LockedBatcher.step, hwants]
              split
              · rename_i hfree
                have hother : ∀ u ∈ s.tasks, u ≠ t → ∀ held ∈ u.holds,
                    (held.1 != want.1 || !held.2.conflicts want.2) = true := fun u hu hne =>
                  List.all_eq_true.mp
                    (List.all_eq_true.mp hfree u (Turns.mem_eraseIdx_of_ne ht hu hne))
                have hreset : Stage.reset.arrive ≠ t := by
                  rintro rfl
                  obtain rfl : (Lock.batchStart, Mode.write) = want := Option.some.inj hwants
                  exact absurd (hother _ h.2 nofun (.batchStart, .read) List.mem_cons_self)
                    (by decide)
                have hcount : Stage.count.arrive ≠ t := by
                  rintro rfl
                  obtain rfl : (Lock.pending, Mode.read) = want := Option.some.inj hwants
                  exact absurd (hother _ h.1 nofun (.pending, .write) List.mem_cons_self)
                    (by decide)
                exact ⟨Turns.mem_set_of_ne ht h.1 hreset, Turns.mem_set_of_ne ht h.2 hcount⟩
              · exact h

end Steps

/-! ## Interleavings -/

/-- An interleaving reaches no deadlock if and only if its steps all meet the
condition. -/
theorem deadlock_free_iff (config : BatchConfig) (batchTx : Channel ChangeBatch)
    (turns : List LockTurn) :
    lockedBatcher.Along (fun s turn => ¬ (s.next turn).Deadlocked)
        (LockedBatcher.start (ChangeBatcher.new config batchTx)) turns ↔
      lockedBatcher.Along Untangled
        (LockedBatcher.start (ChangeBatcher.new config batchTx)) turns := by
  have hstart : ¬ Inverted (LockedBatcher.start (ChangeBatcher.new config batchTx)).tasks :=
    fun h => absurd h.1 List.not_mem_nil
  have hclear : ∀ s turn, ¬ Inverted s.tasks →
      (¬ (s.next turn).Deadlocked ↔ Untangled s turn) := fun s turn h => by
    rw [LockedBatcher.Deadlocked, deadlocked_iff]
    exact inverted_next_iff h turn
  exact along_iff (I := fun s : LockedBatcher => ¬ Inverted s.tasks)
    (fun s turn h hfree => (inverted_next_iff h turn).mpr ((hclear s turn h).mp hfree))
    (fun s turn h => hclear s turn h) hstart turns

/-- A change waits and is old enough when a caller forces a flush: the background
task holds the batch start, the flush holds the pending changes. -/
theorem deadlocked_age_flush :
    ¬ lockedBatcher.Along (fun s turn => ¬ (s.next turn).Deadlocked)
      (LockedBatcher.start (ChangeBatcher.new .default (Channel.new 10)))
      [.add sampleChange, .step 0 0, .step 0 0, .step 0 0, .step 0 0, .step 0 0, .step 0 0,
        .step 0 0, .age, .step 0 100000000, .step 0 100000000, .forceFlush, .step 1 100000000,
        .step 1 100000000] := by
  intro hfree
  have hclear := hfree.mono fun s turn h => mt (deadlocked_iff (s.next turn).tasks).mpr h
  unfold Inverted at hclear
  exact absurd hclear (by decide)

/-- Whatever the other calls do, a deadlock stays. -/
theorem deadlocked_run {s : LockedBatcher} (h : s.Deadlocked) (turns : List LockTurn) :
    (lockedBatcher.run s turns).Deadlocked := by
  rw [LockedBatcher.Deadlocked, deadlocked_iff] at h ⊢
  exact run_invariant (M := lockedBatcher) (P := fun _ _ => True) (I := fun s => Inverted s.tasks)
    (fun s turn h _ => inverted_next h turn) h (along_trivial s turns)

end Batch

end IrohSync
