import IrohSync.Sync.SessionRun

/-!
# What a server can do to a client

A session of the connecting side, whatever bytes the server sends and whatever becomes of the
reads and writes.  The loop takes one message after the other from the stream until one of
them, or what is in place of one, ends it.

Main results:

- Theorem {lit}`Pulled.pass`: what one pass of the loop keeps.
- Theorem {lit}`pulled_any_stream`: what is left of the client at the end of the loop.
- Theorem {lit}`connect_any_stream`: what is left of it after a whole session.
-/

namespace IrohSync

open FileIo Framing Loop

/-! ## The loop -/

/-- How what is in front of these bytes ends the loop, unless it is a message that does not. -/
def stopsAt (wire : Wire) (readError : String) (left : Bytes) : Option (Except Error Unit) :=
  match readFrame be maxMessageSize left with
  | .short => some (.ok ())
  | .marker _ => some (.ok ())
  | .oversized _ => some (.error oversizedError)
  | .cut _ => some (.error (.connection readError))
  | .body body _ =>
      match wire.decode body with
      | .error e => some (.error (.encoding e))
      | .ok (.ack _) => some (.ok ())
      | .ok _ => none

/-- A client that took some messages from a stream of which the rest is left: in front of it
are their frames; the log is as before, and the offset was raised to the identifiers of the
changes that they carry. -/
structure Pulled (wire : Wire) (m : SyncManager) (bytes left : Bytes)
    (taken : List SyncMessage) (m' : SyncManager) : Prop where
  stream : DecodedFront wire bytes left taken
  changes : m'.changes = m.changes
  maxChanges : m'.maxChanges = m.maxChanges
  offset : m'.offset = ((taken.flatMap SyncMessage.changes).map Change.seq).foldl max m.offset

variable {wire : Wire} {m m' : SyncManager} {bytes left : Bytes} {taken : List SyncMessage}

theorem pulled_start (wire : Wire) (m : SyncManager) (bytes : Bytes) :
    Pulled wire m bytes bytes [] m where
  stream := decodedFront_nil wire bytes
  changes := rfl
  maxChanges := rfl
  offset := rfl

/-- One more message is taken. -/
theorem Pulled.take (h : Pulled wire m bytes left taken m') {body rest : Bytes}
    {msg : SyncMessage} (hread : readFrame be maxMessageSize left = .body body rest)
    (hdecode : wire.decode body = .ok msg) :
    Pulled wire m bytes rest (taken ++ [msg]) (m'.applyChanges msg.changes).1 where
  stream := h.stream.concat hread hdecode
  changes := h.changes
  maxChanges := h.maxChanges
  offset := by
    rw [applyChanges_offset, h.offset, List.flatMap_append, List.flatMap_singleton,
      List.map_append, List.foldl_append]

/-- A message that does not end the loop. -/
theorem pullPass_taken {readError : String} {s : PullState} {body rest : Bytes}
    {msg : SyncMessage} (hread : readFrame be maxMessageSize s.rest = .body body rest)
    (hdecode : wire.decode body = .ok msg) (hgoes : stopsAt wire readError s.rest = none) :
    pullPass wire readError s =
      .next { manager := (s.manager.applyChanges msg.changes).1, rest := rest } := by
  rw [stopsAt, hread] at hgoes
  dsimp only at hgoes
  rw [hdecode] at hgoes
  cases msg with
  | response batch => simp [pullPass, hread, hdecode, SyncMessage.changes]
  | ack offset => contradiction
  | request offset limit =>
      simp [pullPass, hread, hdecode, SyncMessage.changes, SyncManager.applyChanges]
  | ping => simp [pullPass, hread, hdecode, SyncMessage.changes, SyncManager.applyChanges]
  | pong => simp [pullPass, hread, hdecode, SyncMessage.changes, SyncManager.applyChanges]

/-- What one pass keeps: it takes a message, or stops where the loop is to stop. -/
theorem Pulled.pass {s : PullState} (h : Pulled wire m bytes s.rest taken s.manager)
    (readError : String) :
    (∃ msg s', pullPass wire readError s = .next s' ∧
      Pulled wire m bytes s'.rest (taken ++ [msg]) s'.manager) ∨
    ∃ rest result, pullPass wire readError s = .done ({ s with rest := rest }, result) ∧
      stopsAt wire readError s.rest = some result := by
  cases hgoes : stopsAt wire readError s.rest with
  | none =>
      have hmessage : ∃ body rest msg, readFrame be maxMessageSize s.rest = .body body rest ∧
          wire.decode body = .ok msg := by
        unfold stopsAt at hgoes
        split at hgoes
        · contradiction
        · contradiction
        · contradiction
        · contradiction
        · next body rest hread =>
            split at hgoes
            · contradiction
            · contradiction
            · next msg _ hdecode => exact ⟨body, rest, msg, hread, hdecode⟩
      rcases hmessage with ⟨body, rest, msg, hread, hdecode⟩
      exact Or.inl ⟨msg, _, pullPass_taken hread hdecode hgoes, h.take hread hdecode⟩
  | some result =>
      right
      unfold stopsAt at hgoes
      cases hread : readFrame be maxMessageSize s.rest with
      | short =>
          rw [hread] at hgoes
          exact ⟨s.rest, result, by simp_all [pullPass], rfl⟩
      | marker rest =>
          rw [hread] at hgoes
          exact ⟨rest, result, by simp_all [pullPass], rfl⟩
      | oversized rest =>
          rw [hread] at hgoes
          exact ⟨rest, result, by simp_all [pullPass], rfl⟩
      | cut rest =>
          rw [hread] at hgoes
          exact ⟨rest, result, by simp_all [pullPass], rfl⟩
      | body body rest =>
          rw [hread] at hgoes
          refine ⟨rest, result, ?_, rfl⟩
          rw [pullPass, hread]
          dsimp only at hgoes ⊢
          split at hgoes
          · next e hdecode =>
              rw [hdecode]
              simp_all
          · next offset hdecode =>
              rw [hdecode]
              simp_all
          · contradiction

/-- The client at the end of the loop: it took messages from some front of the stream, and
stopped where what is left begins with what ends the loop. -/
theorem pulled_any_stream (wire : Wire) (readError : String) (m : SyncManager) (bytes : Bytes) :
    ∃ left taken, Pulled wire m bytes left taken
        ((pullBody wire readError).run ⟨m, bytes⟩).1.manager ∧
      stopsAt wire readError left = some ((pullBody wire readError).run ⟨m, bytes⟩).2 := by
  refine (pullBody wire readError).run_invariant
    (fun s => ∃ taken, Pulled wire m bytes s.rest taken s.manager)
    (fun result => ∃ left taken, Pulled wire m bytes left taken result.1.manager ∧
      stopsAt wire readError left = some result.2) ?_ ?_ ⟨[], pulled_start wire m bytes⟩
  · rintro s s' ⟨taken, h⟩ hpass
    rcases h.pass readError with ⟨msg, t, hnext, hpulled⟩ | ⟨rest, result, hdone, _⟩
    · obtain rfl : t = s' := by
        injection hnext.symm.trans hpass
      exact ⟨_, hpulled⟩
    · exact nomatch hdone.symm.trans hpass
  · rintro s final ⟨taken, h⟩ hpass
    rcases h.pass readError with ⟨msg, t, hnext, _⟩ | ⟨rest, result, hdone, hstops⟩
    · exact nomatch hnext.symm.trans hpass
    · obtain rfl : ({ s with rest := rest }, result) = final := by
        injection hdone.symm.trans hpass
      exact ⟨s.rest, taken, h, hstops⟩

/-! ## The session -/

/-- What a session leaves of a client: its log is as before and its offset was raised to the
identifiers of the changes in the messages that it took; it knows of other peers what it knew
before; and it takes the peer for synchronized if the session succeeded, for which the stream
has to end or to be acknowledged behind these messages, and otherwise for syncing, unless
nothing happened. -/
structure AfterSession {ι : Type} (ids : EndpointIds ι) (wire : Wire) (net : Net)
    (m : PeerSyncManager ι) (peerId : ι) (left : Bytes) (taken : List SyncMessage)
    (after : PeerSyncManager ι × Except Error Unit) : Prop where
  pulled : Pulled wire m.toSyncManager net.bytes left taken after.1.toSyncManager
  others : ∀ key, key ≠ peerKey ids peerId →
    after.1.peerStates.lookup key = m.peerStates.lookup key
  success : after.2 = .ok () → stopsAt wire net.readError left = some (.ok ()) ∧
    net.opened = none ∧ (∀ i < 3, net.write i = none) ∧ net.finish = none
  synchronized : after.2 = .ok () → ∃ st,
    after.1.peerStates.lookup (peerKey ids peerId) = some st ∧ st.state = .synchronized
  unfinished : after.2 ≠ .ok () → after.1 = m ∨ ∃ st,
    after.1.peerStates.lookup (peerKey ids peerId) = some st ∧ st.state = .syncing

section Session

variable {ι : Type} {ids : EndpointIds ι} {net : Net} {p : PeerSyncManager ι} {peerId : ι}

/-- A session that fails after the peer was said to be syncing. -/
theorem afterSession_error (h : Pulled wire p.toSyncManager net.bytes left taken m') (e : Error) :
    AfterSession ids wire net p peerId left taken
      ({ p.updatePeerState ids peerId .syncing with toSyncManager := m' }, .error e) where
  pulled := h
  others := fun _ hne => updatePeerState_lookup_ne p .syncing hne
  success := fun hok => (nomatch hok)
  synchronized := fun hok => (nomatch hok)
  unfinished := fun _ => Or.inr ⟨_, updatePeerState_lookup_self p peerId .syncing, rfl⟩

/-- A session that succeeds. -/
theorem afterSession_ok (h : Pulled wire p.toSyncManager net.bytes left taken m')
    (hstops : stopsAt wire net.readError left = some (.ok ())) (hopened : net.opened = none)
    (hwrite : ∀ i < 3, net.write i = none) (hfinish : net.finish = none) :
    AfterSession ids wire net p peerId left taken
      (({ p.updatePeerState ids peerId .syncing with toSyncManager := m' } :
        PeerSyncManager ι).updatePeerState ids peerId .synchronized, .ok ()) where
  pulled := h
  others := fun key hne => by
    rw [updatePeerState_lookup_ne _ .synchronized hne]
    exact updatePeerState_lookup_ne p .syncing hne
  success := fun _ => ⟨hstops, hopened, hwrite, hfinish⟩
  synchronized := fun _ => ⟨_, updatePeerState_lookup_self _ peerId .synchronized, rfl⟩
  unfinished := fun hnot => absurd rfl hnot

/-- The writes of a client. -/
theorem write_of_firstError (hrequest : net.firstError [0, 1] = none)
    (hend : net.firstError [2] = none) : ∀ i < 3, net.write i = none := by
  simp only [Net.firstError, List.findSome?_cons, List.findSome?_nil] at hrequest hend
  intro i hi
  cases h0 : net.write 0 with
  | some e => simp [h0] at hrequest
  | none =>
      cases h1 : net.write 1 with
      | some e => simp [h0, h1] at hrequest
      | none =>
          cases h2 : net.write 2 with
          | some e => simp [h2] at hend
          | none =>
              match i, hi with
              | 0, _ => exact h0
              | 1, _ => exact h1
              | 2, _ => exact h2

/-- Whatever bytes a server sends, and whatever becomes of the connection: a session never
changes the log of the client, and raises its offset only to identifiers of changes in frames
that decode; it touches the state of no other peer; and it makes the peer synchronized only if
everything succeeded. -/
theorem connect_any_stream (ids : EndpointIds ι) (wire : Wire) (net : Net)
    (p : PeerSyncManager ι) (peerId : ι) :
    ∃ left taken, AfterSession ids wire net p peerId left taken
      (p.connectAndSync ids wire net peerId) := by
  have hstart := pulled_start wire p.toSyncManager net.bytes
  unfold PeerSyncManager.connectAndSync
  cases hopened : net.opened with
  | some e =>
      exact ⟨net.bytes, [], hstart, fun _ _ => rfl, fun hok => (nomatch hok),
        fun hok => (nomatch hok), fun _ => Or.inl rfl⟩
  | none =>
      dsimp only
      split
      · next e _ => exact ⟨net.bytes, [], afterSession_error hstart _⟩
      · cases hrequest : net.firstError [0, 1] with
        | some e => exact ⟨net.bytes, [], afterSession_error hstart _⟩
        | none =>
            rcases pulled_any_stream wire net.readError p.toSyncManager net.bytes with
              ⟨left, taken, hpulled, hstops⟩
            refine ⟨left, taken, ?_⟩
            have hsame : (p.updatePeerState ids peerId .syncing).toSyncManager =
                p.toSyncManager := rfl
            dsimp only
            rw [hsame]
            generalize (pullBody wire net.readError).run ⟨p.toSyncManager, net.bytes⟩ = final
              at hpulled hstops
            cases hresult : final.2 with
            | error e => exact afterSession_error hpulled e
            | ok _ =>
                rw [hresult] at hstops
                cases hend : net.firstError [2] with
                | some e => exact afterSession_error hpulled _
                | none =>
                    cases hfinish : net.finish with
                    | some e => exact afterSession_error hpulled _
                    | none =>
                        exact afterSession_ok hpulled hstops hopened
                          (write_of_firstError hrequest hend) hfinish

end Session

end IrohSync
