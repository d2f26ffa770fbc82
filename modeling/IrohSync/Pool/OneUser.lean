import IrohSync.Pool.ConnectionPool

/-!
# One user at a time

A caller that finds the connection to a peer in use gets another one, which takes
the place of the first in the pool.  The first caller's release then marks the
second connection as unused, because a release names only the peer, and the next
caller gets a connection that somebody still uses.

Main results:

- Theorem {lit}`Idle.next`: what every step keeps but a release of a peer whose
  pooled connection somebody else uses.
- Theorem {lit}`one_user_at_a_time`: in a run without such releases no connection is
  returned while another caller uses it.
-/

namespace IrohSync

namespace Pool

open Machine

variable {ι : Type} [DecidableEq ι]

/-- A returned connection is not in use by another caller. -/
def OneUser (s : PoolRun ι) (event : PoolEvent ι) : Prop :=
  ∀ connection ∈ s.answer event, connection ∉ s.users

/-- When a caller releases its peer, no other caller uses the connection to that peer
that is in the pool. -/
def ReleasesOwn (s : PoolRun ι) : PoolEvent ι → Prop
  | .release i _ => ∀ connection ∈ s.users[i]?,
      ∀ pooled ∈ s.pool.connections.lookup connection.remoteId,
        pooled.connection ∉ s.users.eraseIdx i
  | _ => True

instance (s : PoolRun ι) : ∀ event, Decidable (ReleasesOwn s event)
  | .release i _ =>
      inferInstanceAs (Decidable (∀ connection ∈ s.users[i]?,
        ∀ pooled ∈ s.pool.connections.lookup connection.remoteId,
          pooled.connection ∉ s.users.eraseIdx i))
  | .get _ _ => isTrue trivial
  | .connected _ _ => isTrue trivial
  | .failed _ => isTrue trivial
  | .remove _ => isTrue trivial
  | .cleanup _ => isTrue trivial

/-! ## The invariant -/

/-- Nobody uses a connection that is not marked as in use, connections are pooled
under their peers, and all of them were established earlier. -/
structure Idle (s : PoolRun ι) : Prop where
  idle : ∀ peer pooled, s.pool.connections.lookup peer = some pooled →
    pooled.inUse = false → pooled.connection ∉ s.users
  pooled : ∀ peer pooled, s.pool.connections.lookup peer = some pooled →
    pooled.connection.remoteId = peer ∧ pooled.connection.number < s.established
  users : ∀ connection ∈ s.users, connection.number < s.established

theorem idle_start (config : ConnectionPoolConfig) : Idle (PoolRun.start config : PoolRun ι) where
  idle := by simp [PoolRun.start, ConnectionPool.new]
  pooled := by simp [PoolRun.start, ConnectionPool.new]
  users := by simp [PoolRun.start]

variable {s : PoolRun ι}

theorem Idle.fresh_notMem (h : Idle s) (peer : ι) : s.fresh peer ∉ s.users :=
  fun hmem => Nat.lt_irrefl _ (h.users _ hmem)

/-- No entry is added and nobody becomes a user. -/
theorem Idle.of_sub (h : Idle s) {s' : PoolRun ι}
    (hlookup : ∀ peer pooled, s'.pool.connections.lookup peer = some pooled →
      s.pool.connections.lookup peer = some pooled)
    (husers : s'.users = s.users) (hestablished : s'.established = s.established) : Idle s' where
  idle := by
    rw [husers]
    exact fun peer pooled hpooled => h.idle peer pooled (hlookup peer pooled hpooled)
  pooled := by
    rw [hestablished]
    exact fun peer pooled hpooled => h.pooled peer pooled (hlookup peer pooled hpooled)
  users := by
    rw [husers, hestablished]
    exact h.users

/-- A caller asks for a connection. -/
theorem Idle.get (h : Idle s) (peer : ι) (now : Instant) : Idle (s.next (.get peer now)) := by
  rw [PoolRun.next]
  rcases s.pool.reuse_cases peer now with hmiss | ⟨pooled, hpooled, hidle, hhit⟩
  · rw [hmiss]
    exact h.of_sub (fun _ _ hlookup => hlookup) rfl rfl
  · rw [hhit]
    have hown := h.pooled peer pooled hpooled
    refine ⟨fun peer' pooled' hlookup hidle' => ?_, fun peer' pooled' hlookup => ?_,
      fun connection hmem => ?_⟩
    · by_cases heq : peer' = peer
      · rw [heq, AList.lookup_insert] at hlookup
        rw [← Option.some.inj hlookup] at hidle'
        contradiction
      · rw [AList.lookup_insert_ne heq] at hlookup
        intro hmem
        rcases List.mem_append.mp hmem with hold | hnew
        · exact h.idle peer' pooled' hlookup hidle' hold
        · -- connections of distinct peers are distinct
          rw [← (h.pooled peer' pooled' hlookup).1, List.mem_singleton.mp hnew] at heq
          exact heq hown.1
    · by_cases heq : peer' = peer
      · rw [heq, AList.lookup_insert] at hlookup
        rw [← Option.some.inj hlookup, heq]
        exact hown
      · rw [AList.lookup_insert_ne heq] at hlookup
        exact h.pooled peer' pooled' hlookup
    · rcases List.mem_append.mp hmem with hold | hnew
      · exact h.users connection hold
      · rw [List.mem_singleton.mp hnew]
        exact hown.2

/-- A new connection is put into the pool and returned. -/
theorem Idle.connected (h : Idle s) (i : Nat) (now : Instant) :
    Idle (s.next (.connected i now)) := by
  rw [PoolRun.next]
  cases s.connecting[i]? with
  | none => exact h
  | some peer =>
      have hpooled : ∀ peer' pooled, (s.pool.addConnection peer (s.fresh peer) now
          ).connections.lookup peer' = some pooled →
          (peer' = peer ∧ pooled = (PooledConnection.new (s.fresh peer) now).markUsed now) ∨
            s.pool.connections.lookup peer' = some pooled :=
        fun peer' pooled hlookup => s.pool.of_lookup_addConnection hlookup
      refine ⟨fun peer' pooled hlookup hidle => ?_, fun peer' pooled hlookup => ?_,
        fun connection hmem => ?_⟩
      · rcases hpooled peer' pooled hlookup with ⟨_, rfl⟩ | hold
        · contradiction
        · intro hmem
          rcases List.mem_append.mp hmem with huser | hnew
          · exact h.idle peer' pooled hold hidle huser
          · have hlt := (h.pooled peer' pooled hold).2
            rw [List.mem_singleton.mp hnew] at hlt
            exact Nat.lt_irrefl _ hlt
      · rcases hpooled peer' pooled hlookup with ⟨rfl, rfl⟩ | hold
        · exact ⟨rfl, Nat.lt_succ_self _⟩
        · exact ⟨(h.pooled peer' pooled hold).1, Nat.lt_succ_of_lt (h.pooled peer' pooled hold).2⟩
      · rcases List.mem_append.mp hmem with hold | hnew
        · exact Nat.lt_succ_of_lt (h.users connection hold)
        · rw [List.mem_singleton.mp hnew]
          exact Nat.lt_succ_self _

/-- A caller releases a peer whose pooled connection nobody else uses. -/
theorem Idle.release (h : Idle s) {i : Nat} {now : Instant}
    (hown : ReleasesOwn s (.release i now)) : Idle (s.next (.release i now)) := by
  rw [PoolRun.next]
  cases huser : s.users[i]? with
  | none => exact h
  | some connection =>
      refine ⟨fun peer pooled hlookup hidle => ?_, fun peer pooled hlookup => ?_,
        fun connection' hmem => h.users connection' (List.mem_of_mem_eraseIdx hmem)⟩
      · rcases s.pool.of_lookup_release hlookup with ⟨before, hbefore, hconnection, hother⟩
        by_cases heq : peer = connection.remoteId
        · rw [hconnection]
          exact hown connection huser before (heq ▸ hbefore)
        · obtain rfl := hother heq
          exact fun hmem => h.idle peer pooled hbefore hidle (List.mem_of_mem_eraseIdx hmem)
      · rcases s.pool.of_lookup_release hlookup with ⟨before, hbefore, hconnection, _⟩
        rw [hconnection]
        exact h.pooled peer before hbefore

/-- Every step that meets the condition. -/
theorem Idle.next (h : Idle s) {event : PoolEvent ι} (hown : ReleasesOwn s event) :
    Idle (s.next event) := by
  cases event with
  | get peer now => exact h.get peer now
  | connected i now => exact h.connected i now
  | failed i => exact h.of_sub (fun _ _ hlookup => hlookup) rfl rfl
  | release i now => exact h.release hown
  | remove peer => exact h.of_sub (fun _ _ => s.pool.of_lookup_remove) rfl rfl
  | cleanup now => exact h.of_sub (fun _ _ => s.pool.of_lookup_cleanup) rfl rfl

/-- While nobody uses an idle connection, none is returned twice. -/
theorem Idle.oneUser (h : Idle s) (event : PoolEvent ι) : OneUser s event := by
  intro connection hanswer
  cases event with
  | get peer now =>
      rw [PoolRun.answer] at hanswer
      rcases s.pool.reuse_cases peer now with hmiss | ⟨pooled, hpooled, hidle, hhit⟩
      · rw [hmiss] at hanswer
        contradiction
      · rw [hhit, Option.mem_some_iff] at hanswer
        rw [← hanswer]
        exact h.idle peer pooled hpooled hidle
  | connected i now =>
      rcases Option.map_eq_some_iff.mp hanswer with ⟨peer, _, rfl⟩
      exact h.fresh_notMem peer
  | failed i => contradiction
  | release i now => contradiction
  | remove peer => contradiction
  | cleanup now => contradiction

/-! ## Runs -/

/-- In every run in which a caller releases its peer only while nobody else uses the
pooled connection to that peer, no connection is returned to a caller while another
one uses it. -/
theorem one_user_at_a_time (config : ConnectionPoolConfig) (events : List (PoolEvent ι))
    (hown : pooling.Along ReleasesOwn (PoolRun.start config : PoolRun ι) events) :
    pooling.Along OneUser (PoolRun.start config : PoolRun ι) events :=
  hown.of_invariant (I := Idle) (fun _ _ h hown => h.next hown)
    (fun _ event h _ => h.oneUser event) (idle_start config)

/-- Three callers at a time, two of them for one peer.  The later one of these two
releases the peer, and its connection is returned again while the others are used. -/
theorem one_user_at_a_time_sample :
    pooling.Along OneUser (PoolRun.start .default : PoolRun Nat)
      [.get 7 0, .get 8 1, .connected 0 2, .connected 0 3, .get 7 4, .connected 0 5,
        .release 2 6, .get 7 7] :=
  one_user_at_a_time .default
    [.get 7 0, .get 8 1, .connected 0 2, .connected 0 3, .get 7 4, .connected 0 5,
      .release 2 6, .get 7 7] (by decide)

/-- Two callers use connections to one peer, the first of them releases the peer, and a
third caller gets the connection of the second. -/
theorem not_oneUser_released :
    ¬ pooling.Along OneUser (PoolRun.start .default : PoolRun Nat)
      [.get 7 0, .connected 0 1, .get 7 2, .connected 0 3, .release 0 4, .get 7 5] := by
  unfold OneUser
  decide

end Pool

end IrohSync
