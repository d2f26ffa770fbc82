import Mathlib.Data.List.AList
import Mathlib.Data.List.MinMax
import IrohSync.Lib.Machine
import IrohSync.Lib.Table
import IrohSync.Sync.PeerStates

/-!
# The connection pool

Connections are kept for reuse, at most one for each peer.  Getting a connection
first looks for a healthy one that is not in use; if there is none it establishes
a new one, without holding the lock of the pool, and then puts it in.  In between
other calls go on.

The table is keyed by the peers themselves; their texts, which the source uses,
are distinct.  The order in which the table is gone through means nothing.

Main results:

- Theorems {lit}`ConnectionPool.reuse_cases`,
  {lit}`ConnectionPool.of_lookup_addConnection` and
  {lit}`ConnectionPool.of_lookup_release`: what the operations do to the table.
-/

namespace IrohSync

namespace Pool

/-! ## Connections -/

/-- A connection to a remote endpoint, numbered in the order of establishment. -/
structure Connection (ι : Type) where
  number : Nat
  remoteId : ι
deriving DecidableEq, Repr

/-- A pooled connection to a peer. -/
structure PooledConnection (ι : Type) where
  connection : Connection ι
  createdAt : Instant
  lastUsed : Instant
  useCount : UInt64
  inUse : Bool
  markedClosed : Bool
deriving DecidableEq, Repr

/-- Configuration for the connection pool; durations are in nanoseconds and no
maximum of uses is written as zero. -/
structure ConnectionPoolConfig where
  maxConnections : Nat
  maxAge : Nat
  maxIdle : Nat
  maxUses : UInt64
deriving DecidableEq, Repr

/-- The default configuration. -/
def ConnectionPoolConfig.default : ConnectionPoolConfig where
  maxConnections := 10
  maxAge := 3600000000000
  maxIdle := 300000000000
  maxUses := 100

variable {ι : Type}

namespace PooledConnection

/-- Create a new pooled connection. -/
def new (connection : Connection ι) (now : Instant) : PooledConnection ι where
  connection := connection
  createdAt := now
  lastUsed := now
  useCount := 0
  inUse := false
  markedClosed := false

/-- Mark the connection as being used. -/
def markUsed (pooled : PooledConnection ι) (now : Instant) : PooledConnection ι :=
  { pooled with lastUsed := now, useCount := pooled.useCount + 1, inUse := true }

/-- Mark the connection as released. -/
def markReleased (pooled : PooledConnection ι) : PooledConnection ι :=
  { pooled with inUse := false }

/-- Get the age of the connection. -/
def age (pooled : PooledConnection ι) (now : Instant) : Nat :=
  now - pooled.createdAt

/-- Check if a connection is healthy. -/
def healthy (config : ConnectionPoolConfig) (pooled : PooledConnection ι) (now : Instant) :
    Bool :=
  !pooled.markedClosed && pooled.age now ≤ config.maxAge &&
    now - pooled.lastUsed ≤ config.maxIdle &&
    !(0 < config.maxUses && config.maxUses ≤ pooled.useCount)

end PooledConnection

/-! ## The pool -/

variable [DecidableEq ι]

/-- A connection pool for managing peer connections. -/
structure ConnectionPool (ι : Type) where
  config : ConnectionPoolConfig
  connections : AList fun _ : ι => PooledConnection ι

namespace ConnectionPool

/-- Create a new connection pool. -/
def new (config : ConnectionPoolConfig) : ConnectionPool ι where
  config := config
  connections := ∅

/-- Get the number of connections. -/
def len (pool : ConnectionPool ι) : Nat :=
  pool.connections.entries.length

/-- The first part of getting a connection: look for a healthy one that is not in
use, and mark it as used. -/
def reuse (pool : ConnectionPool ι) (peer : ι) (now : Instant) :
    ConnectionPool ι × Option (Connection ι) :=
  match pool.connections.lookup peer with
  | some pooled =>
      if !pooled.markedClosed && !pooled.inUse && pooled.healthy pool.config now then
        ({ pool with connections := pool.connections.insert peer (pooled.markUsed now) },
          some pooled.connection)
      else (pool, none)
  | none => (pool, none)

/-- Find the oldest unused connection in the pool. -/
def findOldestUnusedConnection (pool : ConnectionPool ι) : Option ι :=
  ((pool.connections.entries.filter fun entry => !entry.2.inUse).argmin
    fun entry => entry.2.createdAt).map Sigma.fst

/-- The peer whose connection is evicted before another one is put in. -/
def evicted (pool : ConnectionPool ι) : Option ι :=
  if pool.config.maxConnections ≤ pool.len then pool.findOldestUnusedConnection else none

/-- The last part of getting a connection: put a new one into the pool, in use. -/
def addConnection (pool : ConnectionPool ι) (peer : ι) (connection : Connection ι)
    (now : Instant) : ConnectionPool ι :=
  let connections :=
    match pool.evicted with
    | some oldest => pool.connections.erase oldest
    | none => pool.connections
  { pool with
    connections := connections.insert peer ((PooledConnection.new connection now).markUsed now) }

/-- Release a connection back to the pool. -/
def release (pool : ConnectionPool ι) (peer : ι) (now : Instant) : ConnectionPool ι :=
  match pool.connections.lookup peer with
  | some pooled =>
      { pool with
        connections := pool.connections.insert peer { pooled.markReleased with lastUsed := now } }
  | none => pool

/-- Remove a connection from the pool. -/
def remove (pool : ConnectionPool ι) (peer : ι) : ConnectionPool ι :=
  { pool with connections := pool.connections.erase peer }

/-- A connection that a cleanup keeps. -/
def keeps (pool : ConnectionPool ι) (now : Instant) (entry : (_ : ι) × PooledConnection ι) :
    Bool :=
  entry.2.healthy pool.config now && !entry.2.inUse

/-- Clean up stale connections. -/
def cleanup (pool : ConnectionPool ι) (now : Instant) : ConnectionPool ι :=
  { pool with
    connections :=
      ⟨pool.connections.entries.filter (pool.keeps now),
        pool.connections.nodupKeys.sublist List.filter_sublist⟩ }

/-! ## What the operations do to the table -/

variable (pool : ConnectionPool ι)

/-- A connection is reused only if it is not in use, and is in use afterwards. -/
theorem reuse_cases (peer : ι) (now : Instant) :
    pool.reuse peer now = (pool, none) ∨
      ∃ pooled, pool.connections.lookup peer = some pooled ∧ pooled.inUse = false ∧
        pool.reuse peer now =
          ({ pool with connections := pool.connections.insert peer (pooled.markUsed now) },
            some pooled.connection) := by
  unfold reuse
  cases hlookup : pool.connections.lookup peer with
  | none => exact Or.inl rfl
  | some pooled =>
      dsimp only
      split
      · next hfree =>
          simp only [Bool.and_eq_true, Bool.not_eq_eq_eq_not, Bool.not_true] at hfree
          exact Or.inr ⟨pooled, rfl, hfree.1.2, rfl⟩
      · exact Or.inl rfl

/-- An entry after a new connection was put in is the new one or was there before. -/
theorem of_lookup_addConnection {peer peer' : ι} {connection : Connection ι} {now : Instant}
    {pooled : PooledConnection ι}
    (hlookup : (pool.addConnection peer connection now).connections.lookup peer' = some pooled) :
    (peer' = peer ∧ pooled = (PooledConnection.new connection now).markUsed now) ∨
      pool.connections.lookup peer' = some pooled := by
  unfold addConnection at hlookup
  by_cases heq : peer' = peer
  · rw [heq, AList.lookup_insert] at hlookup
    exact Or.inl ⟨heq, (Option.some.inj hlookup).symm⟩
  · rw [AList.lookup_insert_ne heq] at hlookup
    cases hevicted : pool.evicted with
    | none =>
        rw [hevicted] at hlookup
        exact Or.inr hlookup
    | some oldest =>
        rw [hevicted] at hlookup
        by_cases hold : peer' = oldest
        · rw [hold, AList.lookup_erase] at hlookup
          contradiction
        · rw [AList.lookup_erase_ne hold] at hlookup
          exact Or.inr hlookup

/-- The released connection is marked, and all others stay as they are. -/
theorem of_lookup_release {peer peer' : ι} {now : Instant} {pooled : PooledConnection ι}
    (hlookup : (pool.release peer now).connections.lookup peer' = some pooled) :
    ∃ before, pool.connections.lookup peer' = some before ∧
      pooled.connection = before.connection ∧ (peer' ≠ peer → pooled = before) := by
  unfold release at hlookup
  cases hbefore : pool.connections.lookup peer with
  | none =>
      rw [hbefore] at hlookup
      exact ⟨pooled, hlookup, rfl, fun _ => rfl⟩
  | some before =>
      rw [hbefore] at hlookup
      by_cases heq : peer' = peer
      · subst heq
        rw [AList.lookup_insert] at hlookup
        exact ⟨before, hbefore, by rw [← Option.some.inj hlookup]; rfl, fun hne => absurd rfl hne⟩
      · rw [AList.lookup_insert_ne heq] at hlookup
        exact ⟨pooled, hlookup, rfl, fun _ => rfl⟩

theorem of_lookup_remove {peer peer' : ι} {pooled : PooledConnection ι}
    (hlookup : (pool.remove peer).connections.lookup peer' = some pooled) :
    pool.connections.lookup peer' = some pooled := by
  unfold remove at hlookup
  by_cases heq : peer' = peer
  · rw [heq, AList.lookup_erase] at hlookup
    contradiction
  · rwa [AList.lookup_erase_ne heq] at hlookup

theorem of_lookup_cleanup {peer : ι} {now : Instant} {pooled : PooledConnection ι}
    (hlookup : (pool.cleanup now).connections.lookup peer = some pooled) :
    pool.connections.lookup peer = some pooled :=
  AList.mem_lookup_iff.mpr (List.mem_of_mem_filter (AList.mem_lookup_iff.mp hlookup))

end ConnectionPool

/-! ## Runs -/

/-- A pool, the peers to which connections are being established, the connections
that were returned and not released since, and the number of connections that were
established. -/
structure PoolRun (ι : Type) where
  pool : ConnectionPool ι
  connecting : List ι
  users : List (Connection ι)
  established : Nat

/-- A part of getting a connection, the end of somebody's use of one, or another call
of the pool. -/
inductive PoolEvent (ι : Type) where
  | get (peer : ι) (now : Instant)
  | connected (i : Nat) (now : Instant)
  | failed (i : Nat)
  | release (i : Nat) (now : Instant)
  | remove (peer : ι)
  | cleanup (now : Instant)

namespace PoolRun

/-- A new pool. -/
def start (config : ConnectionPoolConfig) : PoolRun ι where
  pool := .new config
  connecting := []
  users := []
  established := 0

/-- The connection that is established next. -/
def fresh (s : PoolRun ι) (peer : ι) : Connection ι where
  number := s.established
  remoteId := peer

/-- The state after an event. -/
def next (s : PoolRun ι) : PoolEvent ι → PoolRun ι
  | .get peer now =>
      match s.pool.reuse peer now with
      | (pool, some connection) => { s with pool := pool, users := s.users ++ [connection] }
      | (pool, none) => { s with pool := pool, connecting := s.connecting ++ [peer] }
  | .connected i now =>
      match s.connecting[i]? with
      | none => s
      | some peer =>
          { pool := s.pool.addConnection peer (s.fresh peer) now
            connecting := s.connecting.eraseIdx i
            users := s.users ++ [s.fresh peer]
            established := s.established + 1 }
  | .failed i => { s with connecting := s.connecting.eraseIdx i }
  | .release i now =>
      match s.users[i]? with
      | none => s
      | some connection =>
          { s with
            pool := s.pool.release connection.remoteId now
            users := s.users.eraseIdx i }
  | .remove peer => { s with pool := s.pool.remove peer }
  | .cleanup now => { s with pool := s.pool.cleanup now }

/-- The connection that is returned to a caller. -/
def answer (s : PoolRun ι) : PoolEvent ι → Option (Connection ι)
  | .get peer now => (s.pool.reuse peer now).2
  | .connected i _ => (s.connecting[i]?).map s.fresh
  | _ => none

end PoolRun

/-- The runs of a pool with any number of callers. -/
def pooling : Machine (PoolRun ι) (PoolEvent ι) (Option (Connection ι)) where
  next := PoolRun.next
  answer := PoolRun.answer

end Pool

end IrohSync
