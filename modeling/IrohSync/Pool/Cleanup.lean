import IrohSync.Pool.ConnectionPool

/-!
# Connections that leave the pool

A cleanup keeps what is healthy and not in use, so that it takes a connection out of the pool
while somebody uses it; and so does a new connection to a peer whose connection is in use.

Main results:

- Theorem {lit}`ConnectionPool.lookup_cleanup`: what a cleanup leaves.
- Theorem {lit}`ConnectionPool.cleansExactly_iff`: when a cleanup takes exactly the idle
  connections that are not healthy.
- Theorem {lit}`busy_stays_iff`: in which runs this is so for every cleanup, and no connection
  leaves the pool while it is in use unless its peer is removed.
-/

namespace IrohSync

namespace Pool

open Machine

variable {ι : Type} [DecidableEq ι]

/-- A cleanup keeps every connection that is in use and every idle one that is healthy, and
removes all others. -/
def ConnectionPool.CleansExactly (pool : ConnectionPool ι) (now : Instant) : Prop :=
  ∀ peer, (pool.cleanup now).connections.lookup peer =
    (pool.connections.lookup peer).filter fun pooled =>
      pooled.inUse || pooled.healthy pool.config now

/-- A cleanup is exact, and an event other than the removal of its peer leaves a connection
that is in use in the pool. -/
structure BusyStays (s : PoolRun ι) (event : PoolEvent ι) : Prop where
  cleans : ∀ now, event = .cleanup now → s.pool.CleansExactly now
  stays : ∀ peer pooled, s.pool.connections.lookup peer = some pooled → pooled.inUse = true →
    event ≠ .remove peer →
      ∃ pooled', (s.next event).pool.connections.lookup peer = some pooled' ∧
        pooled'.connection = pooled.connection

/-- A cleanup comes while no connection is in use, and a new connection to a peer is put in
while none to this peer is. -/
def SparesBusy (s : PoolRun ι) : PoolEvent ι → Prop
  | .cleanup _ => ∀ peer, ∀ pooled ∈ s.pool.connections.lookup peer, pooled.inUse = false
  | .connected i _ => ∀ peer ∈ s.connecting[i]?,
      ∀ pooled ∈ s.pool.connections.lookup peer, pooled.inUse = false
  | _ => True

/-! ## What the operations leave -/

namespace ConnectionPool

variable (pool : ConnectionPool ι)

/-- A cleanup leaves what is healthy and not in use. -/
theorem lookup_cleanup (now : Instant) (peer : ι) :
    (pool.cleanup now).connections.lookup peer =
      (pool.connections.lookup peer).filter fun pooled =>
        pooled.healthy pool.config now && !pooled.inUse :=
  Table.lookup_filter (pool.keeps now) pool.connections _ peer

/-- A cleanup is exact if and only if no connection is in use. -/
theorem cleansExactly_iff (now : Instant) :
    pool.CleansExactly now ↔
      ∀ peer, ∀ pooled ∈ pool.connections.lookup peer, pooled.inUse = false := by
  refine forall_congr' fun peer => ?_
  rw [lookup_cleanup]
  cases pool.connections.lookup peer with
  | none => simp
  | some pooled =>
      rw [Option.filter_some, Option.filter_some]
      cases hused : pooled.inUse with
      | true => simp [hused]
      | false => simp [hused]

/-- A connection that is evicted is not in use. -/
theorem inUse_of_evicted {oldest : ι} (hevicted : pool.evicted = some oldest)
    {pooled : PooledConnection ι} (hlookup : pool.connections.lookup oldest = some pooled) :
    pooled.inUse = false := by
  rw [evicted] at hevicted
  split at hevicted
  · rw [findOldestUnusedConnection] at hevicted
    rcases Option.map_eq_some_iff.mp hevicted with ⟨entry, hentry, rfl⟩
    rcases List.mem_filter.mp (List.argmin_mem hentry) with ⟨hmem, hidle⟩
    have hsame : pool.connections.lookup entry.1 = some entry.2 := AList.mem_lookup_iff.mpr hmem
    rw [hlookup, Option.some.injEq] at hsame
    rw [hsame]
    simpa using hidle
  · contradiction

/-- A new connection leaves those of other peers that are in use. -/
theorem lookup_addConnection_of_inUse {peer peer' : ι} (hne : peer' ≠ peer)
    {pooled : PooledConnection ι} (hlookup : pool.connections.lookup peer' = some pooled)
    (hused : pooled.inUse = true) (connection : Connection ι) (now : Instant) :
    (pool.addConnection peer connection now).connections.lookup peer' = some pooled := by
  rw [addConnection, AList.lookup_insert_ne hne]
  cases hevicted : pool.evicted with
  | none => exact hlookup
  | some oldest =>
      have hother : peer' ≠ oldest := by
        rintro rfl
        rw [pool.inUse_of_evicted hevicted hlookup] at hused
        contradiction
      exact (AList.lookup_erase_ne hother).trans hlookup

/-- Its own peer has the new connection. -/
theorem lookup_addConnection_self (peer : ι) (connection : Connection ι) (now : Instant) :
    (pool.addConnection peer connection now).connections.lookup peer =
      some ((PooledConnection.new connection now).markUsed now) :=
  AList.lookup_insert _

/-- A release leaves every connection in the pool. -/
theorem lookup_release {peer peer' : ι} {pooled : PooledConnection ι}
    (hlookup : pool.connections.lookup peer' = some pooled) (now : Instant) :
    ∃ pooled', (pool.release peer now).connections.lookup peer' = some pooled' ∧
      pooled'.connection = pooled.connection := by
  rw [release]
  cases hbefore : pool.connections.lookup peer with
  | none => exact ⟨pooled, hlookup, rfl⟩
  | some before =>
      by_cases heq : peer' = peer
      · subst heq
        rw [hlookup, Option.some.injEq] at hbefore
        subst hbefore
        exact ⟨_, AList.lookup_insert _, rfl⟩
      · exact ⟨pooled, (AList.lookup_insert_ne heq).trans hlookup, rfl⟩

/-- Reuse leaves every connection in the pool. -/
theorem lookup_reuse (peer : ι) {peer' : ι} {pooled : PooledConnection ι}
    (hlookup : pool.connections.lookup peer' = some pooled) (now : Instant) :
    ∃ pooled', (pool.reuse peer now).1.connections.lookup peer' = some pooled' ∧
      pooled'.connection = pooled.connection := by
  rcases pool.reuse_cases peer now with hmiss | ⟨found, hfound, _, hhit⟩
  · rw [hmiss]
    exact ⟨pooled, hlookup, rfl⟩
  · rw [hhit]
    by_cases heq : peer' = peer
    · subst heq
      rw [hlookup, Option.some.injEq] at hfound
      subst hfound
      exact ⟨_, AList.lookup_insert _, rfl⟩
    · exact ⟨pooled, (AList.lookup_insert_ne heq).trans hlookup, rfl⟩

/-- Reuse adds none. -/
theorem of_lookup_reuse {peer peer' : ι} {now : Instant} {pooled : PooledConnection ι}
    (hlookup : (pool.reuse peer now).1.connections.lookup peer' = some pooled) :
    ∃ before, pool.connections.lookup peer' = some before ∧
      pooled.connection = before.connection := by
  rcases pool.reuse_cases peer now with hmiss | ⟨found, hfound, _, hhit⟩
  · rw [hmiss] at hlookup
    exact ⟨pooled, hlookup, rfl⟩
  · rw [hhit] at hlookup
    by_cases heq : peer' = peer
    · subst heq
      rw [AList.lookup_insert] at hlookup
      exact ⟨found, hfound, by rw [← Option.some.inj hlookup]; rfl⟩
    · rw [AList.lookup_insert_ne heq] at hlookup
      exact ⟨pooled, hlookup, rfl⟩

end ConnectionPool

/-! ## The invariant -/

/-- All connections in the pool were established earlier. -/
def Established (s : PoolRun ι) : Prop :=
  ∀ peer pooled, s.pool.connections.lookup peer = some pooled →
    pooled.connection.number < s.established

theorem established_start (config : ConnectionPoolConfig) :
    Established (PoolRun.start config : PoolRun ι) := by
  intro peer pooled hlookup
  simp [PoolRun.start, ConnectionPool.new] at hlookup

variable {s : PoolRun ι}

/-- Looking for a connection establishes none. -/
theorem next_get (peer : ι) (now : Instant) :
    (s.next (.get peer now)).pool = (s.pool.reuse peer now).1 ∧
      (s.next (.get peer now)).established = s.established := by
  rw [PoolRun.next]
  rcases s.pool.reuse_cases peer now with hmiss | ⟨found, _, _, hhit⟩
  · rw [hmiss]
    exact ⟨rfl, rfl⟩
  · rw [hhit]
    exact ⟨rfl, rfl⟩

/-- Every event. -/
theorem Established.next (h : Established s) (event : PoolEvent ι) :
    Established (s.next event) := by
  cases event with
  | get peer now =>
      intro peer' pooled hlookup
      rw [(next_get peer now).1] at hlookup
      rcases s.pool.of_lookup_reuse hlookup with ⟨before, hbefore, hconnection⟩
      rw [hconnection, (next_get peer now).2]
      exact h peer' before hbefore
  | connected i now =>
      rw [PoolRun.next]
      cases s.connecting[i]? with
      | none => exact h
      | some peer =>
          intro peer' pooled hlookup
          rcases s.pool.of_lookup_addConnection hlookup with ⟨_, rfl⟩ | hold
          · exact Nat.lt_succ_self _
          · exact Nat.lt_succ_of_lt (h peer' pooled hold)
  | failed i => exact h
  | release i now =>
      rw [PoolRun.next]
      cases s.users[i]? with
      | none => exact h
      | some connection =>
          intro peer' pooled hlookup
          rcases s.pool.of_lookup_release hlookup with ⟨before, hbefore, hconnection, _⟩
          rw [hconnection]
          exact h peer' before hbefore
  | remove peer =>
      exact fun peer' pooled hlookup => h peer' pooled (s.pool.of_lookup_remove hlookup)
  | cleanup now =>
      exact fun peer' pooled hlookup => h peer' pooled (s.pool.of_lookup_cleanup hlookup)

/-! ## Runs -/

/-- A new connection leaves what is in use exactly if none to its peer is. -/
theorem busyStays_connected_iff (h : Established s) (i : Nat) (now : Instant) :
    BusyStays s (.connected i now) ↔ SparesBusy s (.connected i now) := by
  rw [SparesBusy]
  cases hpeer : s.connecting[i]? with
  | none =>
      have hsame : s.next (.connected i now) = s := by
        rw [PoolRun.next, hpeer]
      refine iff_of_true ⟨fun _ heq => by contradiction, fun peer pooled hlookup _ _ => ?_⟩ ?_
      · rw [hsame]
        exact ⟨pooled, hlookup, rfl⟩
      · simp
  | some peer =>
      have hpool : (s.next (.connected i now)).pool =
          s.pool.addConnection peer (s.fresh peer) now := by
        rw [PoolRun.next, hpeer]
      simp only [Option.mem_some_iff, forall_eq']
      constructor
      · intro hstays pooled hlookup
        by_contra hused
        rw [Bool.not_eq_false] at hused
        rcases hstays.stays peer pooled hlookup hused (by simp) with ⟨pooled', hlookup', hsame⟩
        rw [hpool, s.pool.lookup_addConnection_self, Option.some.injEq] at hlookup'
        -- the new connection has a number that none in the pool has
        have hlt := h peer pooled hlookup
        rw [← hsame, ← hlookup'] at hlt
        exact Nat.lt_irrefl _ hlt
      · intro hspares
        refine ⟨fun _ heq => by contradiction, fun peer' pooled hlookup hused _ => ?_⟩
        have hne : peer' ≠ peer := by
          rintro rfl
          rw [hspares pooled hlookup] at hused
          contradiction
        rw [hpool]
        exact ⟨pooled, s.pool.lookup_addConnection_of_inUse hne hlookup hused _ now, rfl⟩

/-- An event leaves what is in use exactly if it spares it. -/
theorem busyStays_iff (h : Established s) (event : PoolEvent ι) :
    BusyStays s event ↔ SparesBusy s event := by
  cases event with
  | connected i now => exact busyStays_connected_iff h i now
  | cleanup now =>
      rw [SparesBusy, ← s.pool.cleansExactly_iff now]
      constructor
      · intro hstays
        exact hstays.cleans now rfl
      · intro hcleans
        refine ⟨fun now' heq => ?_, fun peer pooled hlookup hused _ => ⟨pooled, ?_, rfl⟩⟩
        · cases heq
          exact hcleans
        · refine (hcleans peer).trans ?_
          rw [hlookup, Option.filter_some, hused]
          rfl
  | get peer now =>
      refine iff_of_true ⟨fun _ heq => by contradiction, fun peer' pooled hlookup _ _ => ?_⟩
        trivial
      rw [(next_get peer now).1]
      exact s.pool.lookup_reuse peer hlookup now
  | failed i =>
      exact iff_of_true ⟨fun _ heq => by contradiction,
        fun peer pooled hlookup _ _ => ⟨pooled, hlookup, rfl⟩⟩ trivial
  | release i now =>
      refine iff_of_true ⟨fun _ heq => by contradiction, fun peer pooled hlookup _ _ => ?_⟩
        trivial
      rw [PoolRun.next]
      cases s.users[i]? with
      | none => exact ⟨pooled, hlookup, rfl⟩
      | some connection => exact s.pool.lookup_release hlookup now
  | remove peer =>
      refine iff_of_true ⟨fun _ heq => by contradiction, fun peer' pooled hlookup _ hne => ?_⟩
        trivial
      have hother : peer' ≠ peer := by
        rintro rfl
        exact hne rfl
      exact ⟨pooled, (AList.lookup_erase_ne hother).trans hlookup, rfl⟩

/-- Throughout a run every cleanup is exact and no connection leaves the pool while it is in
use, unless its peer is removed, exactly if every cleanup comes while no connection is in use
and every new connection while none to its peer is. -/
theorem busy_stays_iff (config : ConnectionPoolConfig) (events : List (PoolEvent ι)) :
    pooling.Along BusyStays (PoolRun.start config : PoolRun ι) events ↔
      pooling.Along SparesBusy (PoolRun.start config) events :=
  along_iff (I := Established) (fun _ event h _ => h.next event)
    (fun _ event h => busyStays_iff h event) (established_start config) events

/-- A cleanup takes away a connection that is a nanosecond old and in use; and a second
connection to a peer takes the place of the first, which is in use. -/
theorem not_busyStays :
    ¬ pooling.Along BusyStays (PoolRun.start .default : PoolRun Nat)
        [.get 7 0, .connected 0 1, .cleanup 2] ∧
      ¬ pooling.Along BusyStays (PoolRun.start .default : PoolRun Nat)
        [.get 7 0, .connected 0 1, .get 7 2, .connected 0 3] := by
  constructor
  · intro hstays
    rcases hstays.2.2.1.stays 7 _ rfl rfl (by simp) with ⟨pooled, hlookup, _⟩
    exact Option.some_ne_none pooled hlookup.symm
  · intro hstays
    rcases hstays.2.2.2.1.stays 7 _ rfl rfl (by simp) with ⟨pooled, hlookup, hsame⟩
    cases hlookup
    exact absurd hsame (by decide)

end Pool

end IrohSync
