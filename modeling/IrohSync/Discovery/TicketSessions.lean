import IrohSync.Discovery.ConnectTicket
import IrohSync.Sync.Pulled

/-!
# The sessions behind a ticket

A call that connects with a ticket runs one session after the other with the manager of the
replicator, until one succeeds.  What the servers send and what becomes of the connections is
given in advance, attempt by attempt.

Main results:

- Theorem {lit}`AfterAttempts.cons`: a session that fails in front of the other attempts.
- Theorem {lit}`connectTicket_any_stream`: what a call leaves of the manager, whatever text the
  ticket is and whatever the servers send.
-/

namespace IrohSync

namespace Discovery

open FileIo

variable {ι α : Type}

/-- An attempt is a session with the endpoint of an address, over the next of the networks. -/
def dial (ids : EndpointIds ι) (wire : Wire) (world : PeerSyncManager ι × (Nat → Net))
    (addr : EndpointAddr ι α) : (PeerSyncManager ι × (Nat → Net)) × Except Error Unit :=
  let session := world.1.connectAndSync ids wire (world.2 0) addr.id
  ((session.1, fun i => world.2 (i + 1)), session.2)

/-- What attempts leave of a manager: its log is as before; its offset was raised to the
identifiers of the changes in messages that were decoded from the front of what the servers
sent; it knows of the peers that were not tried what it knew before; a peer is synchronized
with which a session succeeded; and if none did, what it knows of a peer is as before or that
it is syncing. -/
structure AfterAttempts (ids : EndpointIds ι) (wire : Wire) (nets : Nat → Net)
    (before : PeerSyncManager ι) (attempts : List (EndpointAddr ι α × Except Error Unit))
    (after : PeerSyncManager ι) : Prop where
  changes : after.changes = before.changes
  offset : ∃ taken : List (List SyncMessage), taken.length = attempts.length ∧
    (∀ i msgs, taken[i]? = some msgs → ∃ left, DecodedFront wire (nets i).bytes left msgs) ∧
    after.offset =
      ((taken.flatten.flatMap SyncMessage.changes).map Change.seq).foldl max before.offset
  others : ∀ key, (∀ attempt ∈ attempts, key ≠ peerKey ids attempt.1.id) →
    after.peerStates.lookup key = before.peerStates.lookup key
  synchronized : ∀ attempt ∈ attempts, attempt.2 = .ok () → ∃ st,
    after.peerStates.lookup (peerKey ids attempt.1.id) = some st ∧ st.state = .synchronized
  unfinished : (∀ attempt ∈ attempts, attempt.2 ≠ .ok ()) → ∀ key,
    after.peerStates.lookup key = before.peerStates.lookup key ∨
      ∃ st, after.peerStates.lookup key = some st ∧ st.state = .syncing

variable {ids : EndpointIds ι} {wire : Wire} {nets : Nat → Net}
  {before between after : PeerSyncManager ι}

theorem afterAttempts_nil (ids : EndpointIds ι) (wire : Wire) (nets : Nat → Net)
    (p : PeerSyncManager ι) :
    AfterAttempts ids wire nets p ([] : List (EndpointAddr ι α × Except Error Unit)) p where
  changes := rfl
  offset := ⟨[], rfl, fun i msgs hmsgs => by simp at hmsgs, rfl⟩
  others := fun _ _ => rfl
  synchronized := fun _ hmem => absurd hmem List.not_mem_nil
  unfinished := fun _ _ => Or.inl rfl

/-- A session that succeeds. -/
theorem afterAttempts_ok {addr : EndpointAddr ι α} {left : Bytes} {taken : List SyncMessage}
    (h : AfterSession ids wire (nets 0) before addr.id left taken (after, .ok ())) :
    AfterAttempts ids wire nets before [(addr, .ok ())] after where
  changes := h.pulled.changes
  offset := by
    refine ⟨[taken], rfl, fun i msgs hmsgs => ?_, ?_⟩
    · cases i with
      | zero =>
          obtain rfl := Option.some.inj hmsgs
          exact ⟨left, h.pulled.stream⟩
      | succ i => simp at hmsgs
    · rw [List.flatten_singleton]
      exact h.pulled.offset
  others := fun key hkey => h.others key (hkey _ (List.mem_singleton_self _))
  synchronized := by
    rintro attempt hmem -
    rw [List.mem_singleton.mp hmem]
    exact h.synchronized rfl
  unfinished := fun hfailed => absurd rfl (hfailed _ (List.mem_singleton_self _))

/-- A session that fails, and the attempts behind it. -/
theorem AfterAttempts.cons {addr : EndpointAddr ι α} {left : Bytes} {taken : List SyncMessage}
    {e : Error} {attempts : List (EndpointAddr ι α × Except Error Unit)}
    (h : AfterSession ids wire (nets 0) before addr.id left taken (between, .error e))
    (hrest : AfterAttempts ids wire (fun i => nets (i + 1)) between attempts after) :
    AfterAttempts ids wire nets before ((addr, .error e) :: attempts) after where
  changes := hrest.changes.trans h.pulled.changes
  offset := by
    rcases hrest.offset with ⟨more, hlength, hfronts, hoffset⟩
    refine ⟨taken :: more, congrArg (· + 1) hlength, fun i msgs hmsgs => ?_, ?_⟩
    · cases i with
      | zero =>
          obtain rfl := Option.some.inj hmsgs
          exact ⟨left, h.pulled.stream⟩
      | succ i => exact hfronts i msgs hmsgs
    · have hfirst : between.offset =
          ((taken.flatMap SyncMessage.changes).map Change.seq).foldl max before.offset :=
        h.pulled.offset
      rw [List.flatten_cons, List.flatMap_append, List.map_append, List.foldl_append, hoffset,
        hfirst]
  others := fun key hkey => by
    rw [hrest.others key fun attempt hmem => hkey attempt (List.mem_cons_of_mem _ hmem)]
    exact h.others key (hkey _ List.mem_cons_self)
  synchronized := by
    intro attempt hmem hok
    rcases List.mem_cons.mp hmem with rfl | hmem
    · contradiction
    · exact hrest.synchronized attempt hmem hok
  unfinished := by
    intro hfailed key
    rcases hrest.unfinished (fun attempt hmem =>
      hfailed attempt (List.mem_cons_of_mem _ hmem)) key with hsame | hsyncing
    · rw [hsame]
      by_cases hkey : key = peerKey ids addr.id
      · subst hkey
        rcases h.unfinished (fun hok => (nomatch hok)) with hnothing | hsyncing
        · obtain rfl : between = before := hnothing
          exact Or.inl rfl
        · exact Or.inr hsyncing
      · exact Or.inl (h.others key hkey)
    · exact Or.inr hsyncing

/-- Attempts, one after the other. -/
theorem afterAttempts_run (ids : EndpointIds ι) (wire : Wire) (nets : Nat → Net)
    (p : PeerSyncManager ι) (addrs : List (EndpointAddr ι α)) :
    AfterAttempts ids wire nets p (Attempts.run (dial ids wire) (p, nets) addrs).log
      (Attempts.run (dial ids wire) (p, nets) addrs).state.1 := by
  induction addrs generalizing p nets with
  | nil => exact afterAttempts_nil ids wire nets p
  | cons addr addrs ih =>
      rcases connect_any_stream ids wire (nets 0) p addr.id with ⟨left, taken, hsession⟩
      generalize hresult : p.connectAndSync ids wire (nets 0) addr.id = result at hsession
      rcases result with ⟨between, e | ⟨⟨⟩⟩⟩
      · have hdial : dial ids wire (p, nets) addr =
            ((between, fun i => nets (i + 1)), .error e) := by
          simp only [dial, hresult]
        rw [Attempts.run_cons_error hdial]
        exact .cons hsession (ih _ between)
      · have hdial : dial ids wire (p, nets) addr =
            ((between, fun i => nets (i + 1)), .ok ()) := by
          simp only [dial, hresult]
        rw [Attempts.run_cons_ok hdial]
        exact afterAttempts_ok hsession

/-- Whatever the ticket is, whether the replicator was started or not, and whatever the servers
at the addresses of the ticket send: a call leaves the log of the manager as it was; it raises
the offset only to identifiers of changes that were decoded; it leaves alone what is known of
other peers; and it succeeds exactly if a session did, whose peer is synchronized then. -/
theorem connectTicket_any_stream [ToString ι] (ids : EndpointIds ι) (wire : Wire)
    (nets : Nat → Net) (format : TicketFormat ι α) (r : ReplicatorInner ι) (ticket : String)
    (p : PeerSyncManager ι) :
    AfterAttempts ids wire nets p
        (r.connectTicket format (dial ids wire) ticket (p, nets)).attempts
        (r.connectTicket format (dial ids wire) ticket (p, nets)).world.1 ∧
      ((r.connectTicket format (dial ids wire) ticket (p, nets)).result = .ok () ↔
        ∃ attempt ∈ (r.connectTicket format (dial ids wire) ticket (p, nets)).attempts,
          attempt.2 = .ok ()) := by
  have hfailed : ∀ e : Error, AfterAttempts ids wire nets p
      (Connecting.failed (p, nets) e : Connecting _ ι α).attempts
        (Connecting.failed (p, nets) e : Connecting _ ι α).world.1 ∧
      ((Connecting.failed (p, nets) e : Connecting _ ι α).result = .ok () ↔
        ∃ attempt ∈ (Connecting.failed (p, nets) e : Connecting _ ι α).attempts,
          attempt.2 = .ok ()) := fun e =>
    ⟨afterAttempts_nil ids wire nets p, fun hok => (nomatch hok),
      fun ⟨_, hmem, _⟩ => absurd hmem List.not_mem_nil⟩
  unfold ReplicatorInner.connectTicket
  split
  · exact hfailed _
  · next endpointId addrs hparse =>
      dsimp only
      split
      · exact hfailed _
      · next found hfound =>
          split
          · exact hfailed _
          · refine ⟨afterAttempts_run ids wire nets p found, ?_⟩
            rw [← Attempts.succeeded_iff]
            split
            · next h => simp [h]
            · next h => simp [h]

end Discovery

end IrohSync
