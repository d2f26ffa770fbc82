import Mathlib.Data.List.ReduceOption
import IrohSync.Pool.ConnectionPool

/-!
# Reuse within limits

Beside a run of the pool it is written down which connections were returned, when each was
established, and when a connection to each peer was last returned or released.  A release names
the peer, so it touches the entry of that peer, whichever connection is released.  What the pool
decides from the fields of its entries is then right about the run.

Main results:

- Theorem {lit}`Tracked.next`: what the entries of the pool say about the run so far.
- Theorem {lit}`reused_within_limits`: a connection is reused for the peer that it leads to, at an
  age and within a time since anything was returned or released for that peer that the limits
  allow, and no connection is returned more often than the maximum of uses allows.
-/

namespace IrohSync

namespace Pool

open Machine

variable {ι : Type} [DecidableEq ι]

/-! ## Runs with a log -/

/-- The connections that were returned, the times at which connections were established, by
their numbers, and the last time a connection to each peer was returned or released. -/
structure PoolLog (ι : Type) where
  returned : List (Connection ι)
  born : List Instant
  touched : ι → Option Instant

/-- Nothing has happened. -/
def PoolLog.empty : PoolLog ι where
  returned := []
  born := []
  touched := fun _ => none

/-- Write down an event. -/
def PoolLog.add (log : PoolLog ι) (s : PoolRun ι) : PoolEvent ι → PoolLog ι
  | .get peer now =>
      match (s.pool.reuse peer now).2 with
      | some connection =>
          { log with
            returned := log.returned ++ [connection]
            touched := Function.update log.touched peer (some now) }
      | none => log
  | .connected i now =>
      match s.connecting[i]? with
      | some peer =>
          { returned := log.returned ++ [s.fresh peer]
            born := log.born ++ [now]
            touched := Function.update log.touched peer (some now) }
      | none => log
  | .release i now =>
      match s.users[i]? with
      | some connection =>
          { log with touched := Function.update log.touched connection.remoteId (some now) }
      | none => log
  | .failed _ => log
  | .remove _ => log
  | .cleanup _ => log

/-- The runs of a pool with a log beside them. -/
def logging : Machine (PoolRun ι × PoolLog ι) (PoolEvent ι) (Option (Connection ι)) where
  next := fun s event => (s.1.next event, s.2.add s.1 event)
  answer := fun s event => s.1.answer event

/-- The log of a run holds the connections that the calls return. -/
theorem returned_run (s : PoolRun ι) (log : PoolLog ι) (events : List (PoolEvent ι)) :
    (logging.run (s, log) events).2.returned =
      log.returned ++ (pooling.answers s events).reduceOption := by
  have hstep : ∀ (s : PoolRun ι) (log : PoolLog ι) event,
      (log.add s event).returned = log.returned ++ (s.answer event).toList := by
    intro s log event
    cases event with
    | get peer now =>
        simp only [PoolLog.add, PoolRun.answer]
        cases (s.pool.reuse peer now).2 <;> simp
    | connected i now =>
        simp only [PoolLog.add, PoolRun.answer]
        cases s.connecting[i]? <;> simp
    | release i now =>
        simp only [PoolLog.add, PoolRun.answer]
        cases s.users[i]? <;> simp
    | _ => simp [PoolLog.add, PoolRun.answer]
  induction events generalizing s log with
  | nil => simp [List.reduceOption]
  | cons event events ih =>
      rw [run_cons, answers_cons]
      refine (ih (s.next event) (log.add s event)).trans ?_
      rw [hstep, List.append_assoc]
      have hanswer : (pooling (ι := ι)).answer s event = s.answer event := rfl
      rw [hanswer]
      cases s.answer event with
      | none => rfl
      | some connection => rfl

/-! ## What the entries say -/

/-- A reused connection is free and healthy. -/
theorem ConnectionPool.reuse_healthy (pool : ConnectionPool ι) (peer : ι) (now : Instant) :
    pool.reuse peer now = (pool, none) ∨
      ∃ pooled, pool.connections.lookup peer = some pooled ∧
        pooled.healthy pool.config now = true ∧ pool.reuse peer now =
          ({ pool with connections := pool.connections.insert peer (pooled.markUsed now) },
            some pooled.connection) := by
  unfold reuse
  cases pool.connections.lookup peer with
  | none => exact Or.inl rfl
  | some pooled =>
      dsimp only
      split
      · next hfree =>
          rw [Bool.and_eq_true] at hfree
          exact Or.inr ⟨pooled, rfl, hfree.2, rfl⟩
      · exact Or.inl rfl

omit [DecidableEq ι] in
/-- What it means to be healthy. -/
theorem PooledConnection.healthy_iff (config : ConnectionPoolConfig) (pooled : PooledConnection ι)
    (now : Instant) : pooled.healthy config now = true ↔ pooled.markedClosed = false ∧
      now - pooled.createdAt ≤ config.maxAge ∧ now - pooled.lastUsed ≤ config.maxIdle ∧
        (0 < config.maxUses → pooled.useCount < config.maxUses) := by
  unfold healthy age
  simp only [Bool.and_eq_true, Bool.not_eq_eq_eq_not, Bool.not_true,
    decide_eq_true_eq, Bool.and_eq_false_iff, decide_eq_false_iff_not, and_assoc]
  rw [← imp_iff_not_or, UInt64.not_le]

/-- What an entry of the pool says about the run: which connection it is, when it was
established and last touched, and how often it was returned. -/
structure Entry (config : ConnectionPoolConfig) (log : PoolLog ι) (established : Nat) (peer : ι)
    (pooled : PooledConnection ι) : Prop where
  remoteId : pooled.connection.remoteId = peer
  number : pooled.connection.number < established
  createdAt : log.born[pooled.connection.number]? = some pooled.createdAt
  lastUsed : log.touched peer = some pooled.lastUsed
  useCount : 0 < config.maxUses →
    pooled.useCount.toNat = log.returned.count pooled.connection

/-- The entries of the pool are right about the run, and no connection was returned more often
than the maximum of uses allows. -/
structure Tracked (config : ConnectionPoolConfig) (s : PoolRun ι × PoolLog ι) : Prop where
  config_eq : s.1.pool.config = config
  entry : ∀ peer pooled, s.1.pool.connections.lookup peer = some pooled →
    Entry config s.2 s.1.established peer pooled
  born : s.2.born.length = s.1.established
  returned : ∀ connection ∈ s.2.returned, connection.number < s.1.established
  count : 0 < config.maxUses → ∀ connection,
    s.2.returned.count connection ≤ max 1 config.maxUses.toNat

/-- A connection is reused for its own peer, not too old, not too long after a connection to that
peer was last returned or released, and not after its last use; a new one was never returned
before. -/
def WithinLimits (config : ConnectionPoolConfig) (s : PoolRun ι × PoolLog ι) :
    PoolEvent ι → Prop
  | .get peer now => ∀ connection ∈ s.1.answer (.get peer now), connection.remoteId = peer ∧
      (∃ born ∈ s.2.born[connection.number]?, now - born ≤ config.maxAge) ∧
      (∃ touched ∈ s.2.touched peer, now - touched ≤ config.maxIdle) ∧
      (0 < config.maxUses → s.2.returned.count connection < config.maxUses.toNat)
  | .connected i now => ∀ connection ∈ s.1.answer (.connected i now),
      some connection.remoteId = s.1.connecting[i]? ∧ connection ∉ s.2.returned
  | _ => True

variable {config : ConnectionPoolConfig} {s : PoolRun ι} {log : PoolLog ι}

theorem tracked_start (config : ConnectionPoolConfig) :
    Tracked config ((PoolRun.start config : PoolRun ι), PoolLog.empty) where
  config_eq := rfl
  entry := by simp [PoolRun.start, ConnectionPool.new]
  born := rfl
  returned := by simp [PoolLog.empty]
  count := by simp [PoolLog.empty]

/-- An entry stays right while its peer is not touched and its connection not returned. -/
theorem Entry.mono {established established' : Nat} {log' : PoolLog ι} {peer : ι}
    {pooled : PooledConnection ι} (h : Entry config log established peer pooled)
    (hle : established ≤ established') (hborn : log.born <+: log'.born)
    (htouched : log'.touched peer = log.touched peer)
    (hreturned : log'.returned.count pooled.connection = log.returned.count pooled.connection) :
    Entry config log' established' peer pooled where
  remoteId := h.remoteId
  number := Nat.lt_of_lt_of_le h.number hle
  createdAt := by
    rcases hborn with ⟨rest, hborn⟩
    rw [← hborn]
    exact List.getElem?_append_left (List.getElem?_eq_some_iff.mp h.createdAt).1 ▸ h.createdAt
  lastUsed := htouched ▸ h.lastUsed
  useCount := hreturned ▸ h.useCount

/-- Entries are taken away. -/
theorem Tracked.of_sub (h : Tracked config (s, log)) {s' : PoolRun ι}
    (hconfig : s'.pool.config = s.pool.config)
    (hlookup : ∀ peer pooled, s'.pool.connections.lookup peer = some pooled →
      s.pool.connections.lookup peer = some pooled)
    (hestablished : s'.established = s.established) : Tracked config (s', log) where
  config_eq := hconfig.trans h.config_eq
  entry := fun peer pooled hpooled => by
    have hentry := h.entry peer pooled (hlookup peer pooled hpooled)
    exact hentry.mono (Nat.le_of_eq hestablished.symm) (List.prefix_refl _) rfl rfl
  born := h.born.trans hestablished.symm
  returned := fun connection hmem => hestablished ▸ h.returned connection hmem
  count := h.count

/-! ## Steps -/

/-- What a reuse tells about the run. -/
theorem Tracked.get_within (h : Tracked config (s, log)) (peer : ι) (now : Instant) :
    WithinLimits config (s, log) (.get peer now) := by
  intro connection hconnection
  rcases s.pool.reuse_healthy peer now with hmiss | ⟨pooled, hpooled, hhealthy, hhit⟩
  · simp [PoolRun.answer, hmiss] at hconnection
  · have hentry := h.entry peer pooled hpooled
    rw [show s.pool.config = config from h.config_eq, PooledConnection.healthy_iff] at hhealthy
    obtain rfl : pooled.connection = connection := by
      simpa [PoolRun.answer, hhit] using hconnection
    refine ⟨hentry.remoteId, ⟨_, hentry.createdAt, hhealthy.2.1⟩,
      ⟨_, hentry.lastUsed, hhealthy.2.2.1⟩, fun hlimited => ?_⟩
    have huses := UInt64.lt_iff_toNat_lt.mp (hhealthy.2.2.2 hlimited)
    rwa [hentry.useCount hlimited] at huses

/-- A connection is looked for. -/
theorem Tracked.get (h : Tracked config (s, log)) (peer : ι) (now : Instant) :
    Tracked config (s.next (.get peer now), log.add s (.get peer now)) := by
  have hwithin := h.get_within peer now
  rw [PoolRun.next, PoolLog.add]
  rcases s.pool.reuse_healthy peer now with hmiss | ⟨pooled, hpooled, hhealthy, hhit⟩
  · rw [hmiss]
    exact h.of_sub rfl (fun _ _ hlookup => hlookup) rfl
  · rw [hhit]
    have hentry := h.entry peer pooled hpooled
    have hfew := hwithin pooled.connection (by simp [PoolRun.answer, hhit])
    refine ⟨h.config_eq, fun peer' pooled' hlookup => ?_, h.born, fun connection hmem => ?_,
      fun hlimited connection => ?_⟩
    · by_cases heq : peer' = peer
      · subst heq
        rw [AList.lookup_insert] at hlookup
        obtain rfl := Option.some.inj hlookup
        refine ⟨hentry.remoteId, hentry.number, hentry.createdAt, Function.update_self .., ?_⟩
        intro hlimited
        have hless := hfew.2.2.2 hlimited
        have hcount := hentry.useCount hlimited
        have hmax := config.maxUses.toNat_lt
        dsimp only at hless hcount
        simp only [PooledConnection.markUsed, List.count_append, List.count_singleton_self,
          UInt64.toNat_add, UInt64.toNat_one] at hless ⊢
        omega
      · rw [AList.lookup_insert_ne heq] at hlookup
        have hother := h.entry peer' pooled' hlookup
        refine hother.mono (Nat.le_refl _) (List.prefix_refl _) (Function.update_of_ne heq ..) ?_
        -- connections to distinct peers are distinct
        have hne : pooled.connection ≠ pooled'.connection := by
          intro hsame
          rw [← hother.remoteId, ← hsame, hentry.remoteId] at heq
          exact heq rfl
        rw [List.count_append, List.count_singleton]
        simp [hne]
    · rcases List.mem_append.mp hmem with hold | hnew
      · exact h.returned connection hold
      · rw [List.mem_singleton.mp hnew]
        exact hentry.number
    · have hless := hfew.2.2.2 hlimited
      have hold := h.count hlimited connection
      simp only [List.count_append, List.count_singleton, beq_iff_eq] at hless hold ⊢
      split
      · next hsame =>
          subst hsame
          omega
      · omega

/-- A new connection is put into the pool. -/
theorem Tracked.connected (h : Tracked config (s, log)) (i : Nat) (now : Instant) :
    Tracked config (s.next (.connected i now), log.add s (.connected i now)) := by
  rw [PoolRun.next, PoolLog.add]
  cases s.connecting[i]? with
  | none => exact h
  | some peer =>
      have hfresh : s.fresh peer ∉ log.returned := fun hmem =>
        Nat.lt_irrefl _ (h.returned _ hmem)
      have hzero := List.count_eq_zero.mpr hfresh
      have hborn : log.born.length = s.established := h.born
      refine ⟨h.config_eq, fun peer' pooled hlookup => ?_, by simp [hborn],
        fun connection hmem => ?_, fun hlimited connection => ?_⟩
      · by_cases heq : peer' = peer
        · subst heq
          simp only [ConnectionPool.addConnection, AList.lookup_insert] at hlookup
          obtain rfl := Option.some.inj hlookup
          refine ⟨rfl, Nat.lt_succ_self _, ?_, Function.update_self .., fun _ => ?_⟩
          · simp [PooledConnection.markUsed, PooledConnection.new, PoolRun.fresh, ← hborn]
          · simp [PooledConnection.markUsed, PooledConnection.new, hzero]
        · rcases s.pool.of_lookup_addConnection hlookup with ⟨rfl, _⟩ | hold
          · exact absurd rfl heq
          · have hother := h.entry peer' pooled hold
            refine hother.mono (Nat.le_succ _) (List.prefix_append _ _)
              (Function.update_of_ne heq ..) ?_
            have hne : s.fresh peer ≠ pooled.connection := by
              rintro hsame
              exact Nat.lt_irrefl s.established (hsame ▸ hother.number : (s.fresh peer).number < _)
            rw [List.count_append, List.count_singleton]
            simp [hne]
      · rcases List.mem_append.mp hmem with hold | hnew
        · exact Nat.lt_succ_of_lt (h.returned connection hold)
        · rw [List.mem_singleton.mp hnew]
          exact Nat.lt_succ_self _
      · have hold := h.count hlimited connection
        simp only [List.count_append, List.count_singleton, beq_iff_eq] at hold ⊢
        split
        · next hsame =>
            subst hsame
            rw [hzero]
            exact Nat.le_max_left _ _
        · omega

/-- A connection is released. -/
theorem Tracked.release (h : Tracked config (s, log)) (i : Nat) (now : Instant) :
    Tracked config (s.next (.release i now), log.add s (.release i now)) := by
  rw [PoolRun.next, PoolLog.add]
  cases s.users[i]? with
  | none => exact h
  | some connection =>
      refine ⟨?_, fun peer pooled hlookup => ?_, h.born, h.returned, h.count⟩
      · simp only [ConnectionPool.release]
        split <;> exact h.config_eq
      · by_cases heq : peer = connection.remoteId
        · subst heq
          simp only [ConnectionPool.release] at hlookup
          split at hlookup
          · next before hbefore =>
              rw [AList.lookup_insert] at hlookup
              obtain rfl := Option.some.inj hlookup
              have hentry := h.entry _ before hbefore
              exact ⟨hentry.remoteId, hentry.number, hentry.createdAt,
                Function.update_self .., hentry.useCount⟩
          · next hnone =>
              rw [hnone] at hlookup
              contradiction
        · rcases s.pool.of_lookup_release hlookup with ⟨before, hbefore, _, hother⟩
          obtain rfl := hother heq
          exact (h.entry peer pooled hbefore).mono (Nat.le_refl _) (List.prefix_refl _)
            (Function.update_of_ne heq ..) rfl

/-- Every step. -/
theorem Tracked.next (h : Tracked config (s, log)) (event : PoolEvent ι) :
    Tracked config (s.next event, log.add s event) := by
  cases event with
  | get peer now => exact h.get peer now
  | connected i now => exact h.connected i now
  | failed i => exact h.of_sub rfl (fun _ _ hlookup => hlookup) rfl
  | release i now => exact h.release i now
  | remove peer => exact h.of_sub rfl (fun _ _ => s.pool.of_lookup_remove) rfl
  | cleanup now => exact h.of_sub rfl (fun _ _ => s.pool.of_lookup_cleanup) rfl

theorem Tracked.within (h : Tracked config (s, log)) (event : PoolEvent ι) :
    WithinLimits config (s, log) event := by
  cases event with
  | get peer now => exact h.get_within peer now
  | connected i now =>
      intro connection hconnection
      rcases Option.map_eq_some_iff.mp hconnection with ⟨peer, hpeer, rfl⟩
      exact ⟨hpeer.symm, fun hmem => Nat.lt_irrefl _ (h.returned _ hmem)⟩
  | _ => trivial

/-- In every run, with any callers at any times, a connection is reused for the peer that it
leads to, no older than the maximum age, no longer than the maximum idle time after one was last
returned or released for that peer, and only while it was returned less often than the maximum of
uses; so with a maximum no connection is returned more often than that, or than once. -/
theorem reused_within_limits (config : ConnectionPoolConfig) (events : List (PoolEvent ι)) :
    logging.Along (WithinLimits config) ((PoolRun.start config : PoolRun ι), PoolLog.empty)
        events ∧
      (0 < config.maxUses → ∀ connection,
        (pooling.answers (PoolRun.start config : PoolRun ι) events).reduceOption.count connection ≤
          max 1 config.maxUses.toNat) := by
  have htracked : ∀ s event, Tracked config s → True →
      Tracked config ((logging (ι := ι)).next s event) := fun s event h _ => h.next event
  refine ⟨(along_trivial _ _).of_invariant htracked (fun s event h _ => h.within event)
    (tracked_start config), fun hlimited connection => ?_⟩
  have hcount := (run_invariant htracked (tracked_start config)
    (along_trivial _ events)).count hlimited connection
  rw [returned_run] at hcount
  exact hcount

end Pool

end IrohSync
