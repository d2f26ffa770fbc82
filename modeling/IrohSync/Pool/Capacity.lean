import IrohSync.Pool.ConnectionPool

/-!
# The capacity of the pool

A new connection is put in whether or not another one could be evicted, and
whether or not the peer is in the pool already.  So the pool grows beyond its
capacity while all its connections are in use, and it evicts a connection that it
had room for when a full pool gets a new connection to a peer it knows.

Main results:

- Theorem {lit}`capped_addConnection_iff`: when a new connection respects the capacity.
- Theorem {lit}`capacity_iff`: in which runs the pool respects its capacity.
-/

namespace IrohSync

namespace Pool

open Machine

variable {ι : Type}

/-- The largest number of connections in a pool; there is room for one in any case. -/
def ConnectionPoolConfig.limit (config : ConnectionPoolConfig) : Nat :=
  max 1 config.maxConnections

/-- A pool is within its limit. -/
def WithinLimit (pool : ConnectionPool ι) : Prop :=
  pool.len ≤ pool.config.limit

theorem WithinLimit.of_le {pool pool' : ConnectionPool ι} (h : WithinLimit pool)
    (hconfig : pool'.config = pool.config) (hlen : pool'.len ≤ pool.len) :
    WithinLimit pool' := by
  rw [WithinLimit, hconfig]
  exact hlen.trans h

theorem WithinLimit.cleanup {pool : ConnectionPool ι} (h : WithinLimit pool) (now : Instant) :
    WithinLimit (pool.cleanup now) :=
  h.of_le rfl (List.length_filter_le _ _)

/-- Some connection is not in use. -/
def ConnectionPool.HasUnused (pool : ConnectionPool ι) : Prop :=
  ∃ entry ∈ pool.connections.entries, entry.2.inUse = false

instance (pool : ConnectionPool ι) : Decidable pool.HasUnused :=
  inferInstanceAs (Decidable (∃ entry ∈ pool.connections.entries, entry.2.inUse = false))

/-! ## Evictions -/

namespace ConnectionPool

variable {pool : ConnectionPool ι}

theorem findOldestUnusedConnection_eq_none_iff :
    pool.findOldestUnusedConnection = none ↔ ¬ pool.HasUnused := by
  rw [findOldestUnusedConnection, Option.map_eq_none_iff, List.argmin_eq_none,
    List.filter_eq_nil_iff, HasUnused, not_exists]
  refine forall_congr' fun entry => ?_
  rw [not_and]
  simp

/-- Only peers of the pool are evicted. -/
theorem mem_of_evicted {oldest : ι} (hevicted : pool.evicted = some oldest) :
    oldest ∈ pool.connections := by
  rw [evicted] at hevicted
  split at hevicted
  · rw [findOldestUnusedConnection] at hevicted
    rcases Option.map_eq_some_iff.mp hevicted with ⟨entry, hentry, rfl⟩
    have hmem := List.mem_of_mem_filter (List.argmin_mem hentry)
    exact AList.mem_keys.mpr (List.mem_map_of_mem hmem)
  · contradiction

/-- Nothing is evicted while there is room or all connections are in use. -/
theorem evicted_eq_none_iff :
    pool.evicted = none ↔ pool.len < pool.config.maxConnections ∨ ¬ pool.HasUnused := by
  rw [evicted]
  split
  · next hfull =>
      rw [findOldestUnusedConnection_eq_none_iff]
      exact ⟨Or.inr, fun h => h.resolve_left (Nat.not_lt.mpr hfull)⟩
  · next hroom => exact ⟨fun _ => Or.inl (Nat.not_le.mp hroom), fun _ => rfl⟩

end ConnectionPool

/-! ## The capacity -/

variable [DecidableEq ι]

/-- The size of a pool after a connection was put in and none evicted. -/
def ConnectionPool.lenWith (pool : ConnectionPool ι) (peer : ι) : Nat :=
  if peer ∈ pool.connections then pool.len else pool.len + 1

/-- After an event the pool is within its limit, and a new connection made another one
go only if both would not have fit. -/
def Capped (s : PoolRun ι) (event : PoolEvent ι) : Prop :=
  WithinLimit (s.next event).pool ∧
    match event with
    | .connected i _ => ∀ peer ∈ s.connecting[i]?, s.pool.evicted ≠ none →
        s.pool.config.limit < s.pool.lenWith peer
    | _ => True

/-- A new connection comes to a pool that has room or is empty; or there is no room,
the peer is known and all connections are in use; or there is no room, the peer is not
known and some connection is not in use. -/
def ConnectionPool.Fits (pool : ConnectionPool ι) (peer : ι) : Prop :=
  pool.len < pool.config.maxConnections ∨ pool.len = 0 ∨
    (peer ∈ pool.connections ↔ ¬ pool.HasUnused)

/-- Every new connection fits. -/
def FitsIn (s : PoolRun ι) : PoolEvent ι → Prop
  | .connected i _ => ∀ peer ∈ s.connecting[i]?, s.pool.Fits peer
  | _ => True

/-! ## One new connection -/

section Sizes

variable {pool : ConnectionPool ι} {peer : ι}

/-- The size after a connection was put in and none evicted. -/
theorem ConnectionPool.len_addConnection_of_none (hevicted : pool.evicted = none)
    (connection : Connection ι) (now : Instant) :
    (pool.addConnection peer connection now).len = pool.lenWith peer := by
  unfold addConnection lenWith len
  rw [hevicted]
  by_cases hold : peer ∈ pool.connections
  · rw [if_pos hold]
    exact Table.length_insert_of_mem hold _
  · rw [if_neg hold]
    exact Table.length_insert_of_notMem hold _

/-- The size after a connection was put in and another one evicted. -/
theorem ConnectionPool.len_addConnection_of_some {oldest : ι}
    (hevicted : pool.evicted = some oldest) (peer : ι) (connection : Connection ι)
    (now : Instant) :
    (pool.addConnection peer connection now).len ≤ pool.len := by
  have hlen := Table.length_erase_of_mem (mem_of_evicted hevicted)
  unfold addConnection len
  rw [hevicted]
  by_cases hold : peer ∈ pool.connections.erase oldest
  · rw [Table.length_insert_of_mem hold]
    omega
  · rw [Table.length_insert_of_notMem hold]
    omega

/-- A new connection to a pool within its limit keeps it within and makes another one
go only for lack of room exactly if it fits. -/
theorem capped_addConnection_iff (hwithin : WithinLimit pool) (connection : Connection ι)
    (now : Instant) :
    (WithinLimit (pool.addConnection peer connection now) ∧
        (pool.evicted ≠ none → pool.config.limit < pool.lenWith peer)) ↔ pool.Fits peer := by
  have hconfig : (pool.addConnection peer connection now).config = pool.config := rfl
  have hlimit : pool.config.limit = max 1 pool.config.maxConnections := rfl
  unfold WithinLimit at hwithin ⊢
  unfold ConnectionPool.Fits
  rw [hconfig]
  cases hevicted : pool.evicted with
  | none =>
      rw [ConnectionPool.len_addConnection_of_none hevicted, ConnectionPool.lenWith]
      have hkept := ConnectionPool.evicted_eq_none_iff.mp hevicted
      by_cases hold : peer ∈ pool.connections
      · rw [if_pos hold]
        refine ⟨fun _ => ?_, fun _ => ⟨hwithin, fun h => absurd rfl h⟩⟩
        exact hkept.imp_right fun hused => Or.inr ⟨fun _ => hused, fun _ => hold⟩
      · rw [if_neg hold]
        constructor
        · intro h
          have hlen := h.1
          omega
        · intro h
          refine ⟨?_, fun h => absurd rfl h⟩
          rcases h with hroom | hempty | hknown
          · omega
          · omega
          · have hroom := hkept.resolve_right fun hused => hold (hknown.mpr hused)
            omega
  | some oldest =>
      -- the pool is full and has a connection that is not in use
      have hnone : ¬ (pool.len < pool.config.maxConnections ∨ ¬ pool.HasUnused) := by
        rw [← ConnectionPool.evicted_eq_none_iff, hevicted]
        exact Option.some_ne_none oldest
      rw [not_or, not_not] at hnone
      have hpos := List.length_pos_of_mem (AList.mem_keys.mp
        (ConnectionPool.mem_of_evicted hevicted))
      rw [Table.length_keys] at hpos
      have hlen := ConnectionPool.len_addConnection_of_some hevicted peer connection now
      rw [ConnectionPool.lenWith]
      by_cases hold : peer ∈ pool.connections
      · rw [if_pos hold]
        refine ⟨fun h => absurd (h.2 (Option.some_ne_none oldest)) (Nat.not_lt.mpr hwithin),
          fun h => ?_⟩
        rcases h with hroom | hempty | hknown
        · exact absurd hroom hnone.1
        · exact absurd hempty (Nat.pos_iff_ne_zero.mp hpos)
        · exact absurd hnone.2 (hknown.mp hold)
      · rw [if_neg hold]
        refine ⟨fun _ => Or.inr (Or.inr ?_), fun _ => ⟨hlen.trans hwithin, fun _ => ?_⟩⟩
        · exact ⟨fun h => absurd h hold, fun h => absurd hnone.2 h⟩
        · rw [ConnectionPool.len] at *
          omega

end Sizes

/-! ## The other operations -/

section Operations

variable {pool : ConnectionPool ι}

/-- A reused connection stays where it was. -/
theorem WithinLimit.reuse (h : WithinLimit pool) (peer : ι) (now : Instant) :
    WithinLimit (pool.reuse peer now).1 := by
  rcases pool.reuse_cases peer now with hmiss | ⟨pooled, hpooled, _, hhit⟩
  · rw [hmiss]
    exact h
  · rw [hhit]
    have hold : peer ∈ pool.connections := AList.lookup_isSome.mp (hpooled ▸ rfl)
    exact h.of_le rfl (Table.length_insert_of_mem hold _).le

/-- So does a released one. -/
theorem WithinLimit.release (h : WithinLimit pool) (peer : ι) (now : Instant) :
    WithinLimit (pool.release peer now) := by
  unfold ConnectionPool.release
  cases hlookup : pool.connections.lookup peer with
  | none => exact h
  | some pooled =>
      have hold : peer ∈ pool.connections := AList.lookup_isSome.mp (hlookup ▸ rfl)
      exact h.of_le rfl (Table.length_insert_of_mem hold _).le

theorem WithinLimit.remove (h : WithinLimit pool) (peer : ι) :
    WithinLimit (pool.remove peer) :=
  h.of_le rfl Table.length_erase_le

end Operations

/-! ## Runs -/

variable {s : PoolRun ι}

/-- Only new connections can make a pool exceed its limit. -/
theorem capped_iff (h : WithinLimit s.pool) (event : PoolEvent ι) :
    Capped s event ↔ FitsIn s event := by
  have hother : WithinLimit (s.next event).pool → (WithinLimit (s.next event).pool ∧ True ↔ True) :=
    fun hnext => ⟨fun _ => trivial, fun _ => ⟨hnext, trivial⟩⟩
  cases event with
  | get peer now =>
      apply hother
      have hreuse := h.reuse peer now
      rw [PoolRun.next]
      cases hfound : s.pool.reuse peer now with
      | mk pool found =>
          rw [hfound] at hreuse
          cases found with
          | none => exact hreuse
          | some connection => exact hreuse
  | connected i now =>
      rw [Capped, FitsIn, PoolRun.next]
      cases hpeer : s.connecting[i]? with
      | none => simpa using h
      | some peer =>
          simp only [Option.mem_some_iff, forall_eq']
          exact capped_addConnection_iff h (s.fresh peer) now
  | failed i => exact hother h
  | release i now =>
      apply hother
      rw [PoolRun.next]
      cases s.users[i]? with
      | none => exact h
      | some connection => exact h.release connection.remoteId now
  | remove peer => exact hother (h.remove peer)
  | cleanup now => exact hother (h.cleanup now)

/-- A pool respects its capacity throughout a run exactly if every new connection fits
when it is put in. -/
theorem capacity_iff (config : ConnectionPoolConfig) (events : List (PoolEvent ι)) :
    pooling.Along Capped (PoolRun.start config : PoolRun ι) events ↔
      pooling.Along FitsIn (PoolRun.start config) events :=
  along_iff (I := fun s => WithinLimit s.pool) (fun _ _ _ h => h.1)
    (fun _ event h => capped_iff h event) (Nat.zero_le _) events

/-- A pool for one connection gets two, because both are in use; and a pool for two, in
which a peer is in use and another is not, drops the other when the first is connected
to again. -/
theorem not_capped :
    ¬ pooling.Along Capped
        (PoolRun.start { ConnectionPoolConfig.default with maxConnections := 1 } : PoolRun Nat)
        [.get 7 0, .connected 0 1, .get 8 2, .connected 0 3] ∧
      ¬ pooling.Along Capped
        (PoolRun.start { ConnectionPoolConfig.default with maxConnections := 2 } : PoolRun Nat)
        [.get 7 0, .connected 0 1, .get 8 2, .connected 0 3, .release 1 4, .get 7 5,
          .connected 0 6] := by
  constructor
  · intro hcapped
    have hlimit := hcapped.2.2.2.1.1
    unfold WithinLimit at hlimit
    exact absurd hlimit (by decide)
  · intro hcapped
    have hevicts := hcapped.2.2.2.2.2.2.1.2 7 rfl (by decide)
    exact absurd hevicts (by decide)

end Pool

end IrohSync
