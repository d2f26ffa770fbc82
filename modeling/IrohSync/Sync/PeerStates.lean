import Mathlib.Data.List.AList
import IrohSync.Common
import IrohSync.Sync.Manager

/-!
# Peer sync states

The sync manager together with its table of peer states, snapshots of both and
the way back from a snapshot.  The table is keyed by the base64 encoding of a
peer's identifier; the identifiers themselves belong to the network library and
are a parameter.  The order in which a table is listed means nothing: snapshots
are compared up to the order of their peers.

Main results:

- Theorem {lit}`restorePeers_spec`: what restoring a list of peers makes of a
  table.
- Theorems {lit}`PeerTable.Keyed.updatePeerState` and
  {lit}`PeerTable.Keyed.restorePeers`: every key of the table decodes to the
  identifier stored under it.
-/

namespace IrohSync

open FileIo

/-! ## Peers -/

/-- Sync state between two peers. -/
inductive SyncState where
  | disconnected
  | connecting
  | syncing
  | synchronized
  | error (message : String)
deriving DecidableEq, Repr

/-- The endpoint identifiers of the network library: public keys of 32 bytes. -/
structure EndpointIds (ι : Type) where
  asBytes : ι → Bytes
  length_asBytes : ∀ id, (asBytes id).length = 32
  fromBytes : Bytes → Except String ι

/-- The bytes of an identifier are accepted and give it back. -/
structure EndpointIds.Lawful {ι : Type} (ids : EndpointIds ι) : Prop where
  fromBytes_asBytes : ∀ id, ids.fromBytes (ids.asBytes id) = .ok id

/-- A point in time, in nanoseconds. -/
abbrev Instant := Nat

/-- A peer's sync state. -/
structure PeerSyncState (ι : Type) where
  peerId : ι
  state : SyncState
  lastOffset : UInt64
  lastSync : Option Instant
deriving DecidableEq, Repr

/-- Create a new peer sync state. -/
def PeerSyncState.new {ι : Type} (peerId : ι) : PeerSyncState ι where
  peerId := peerId
  state := .disconnected
  lastOffset := 0
  lastSync := none

/-- The table of peer states. -/
abbrev PeerTable (ι : Type) :=
  AList fun _ : String => PeerSyncState ι

/-- Snapshot of sync state for persistence. -/
structure SyncSnapshot where
  offset : UInt64
  changes : List Change
  peers : List (String × UInt64)
deriving DecidableEq, Repr

/-- Two snapshots that list the same peers in any order. -/
structure SyncSnapshot.Same (s s' : SyncSnapshot) : Prop where
  offset : s.offset = s'.offset
  changes : s.changes = s'.changes
  peers : s.peers.Perm s'.peers

/-- A sync manager with its peer sync states. -/
structure PeerSyncManager (ι : Type) extends SyncManager where
  peerStates : PeerTable ι

variable {ι : Type} (ids : EndpointIds ι)

/-- Create a new sync manager. -/
def PeerSyncManager.new (maxChanges : UInt64) : PeerSyncManager ι where
  toSyncManager := SyncManager.new maxChanges
  peerStates := ∅

/-- The key under which a peer is stored. -/
def peerKey (id : ι) : String :=
  base64UrlEncode (ids.asBytes id)

/-- Update the state of a peer. -/
def PeerSyncManager.updatePeerState (m : PeerSyncManager ι) (peerId : ι) (state : SyncState) :
    PeerSyncManager ι :=
  let key := peerKey ids peerId
  let entry := (m.peerStates.lookup key).getD (PeerSyncState.new peerId)
  { m with peerStates := m.peerStates.insert key { entry with state := state } }

/-- Get the state of all known peers. -/
def PeerSyncManager.getPeerStates (m : PeerSyncManager ι) : List (PeerSyncState ι) :=
  m.peerStates.entries.map Sigma.snd

/-- Get a state snapshot for persistence. -/
def PeerSyncManager.snapshot (m : PeerSyncManager ι) : SyncSnapshot where
  offset := m.offset
  changes := m.changes
  peers := m.peerStates.entries.map fun entry => (entry.1, entry.2.lastOffset)

/-! ## Restoring -/

/-- The identifier that a key encodes.  There is no value where the slice of the
first 32 bytes panics. -/
def decodePeerId (encoded : String) : Option (Except Error ι) :=
  match base64UrlDecode encoded with
  | .error e => some (.error (.encoding ("base64 decode failed: " ++ e)))
  | .ok bytes =>
      if bytes.length < 32 then none
      else
        match ids.fromBytes (bytes.take 32) with
        | .error e => some (.error (.encoding ("failed to create endpoint ID: " ++ e)))
        | .ok id => some (.ok id)

/-- The state of a peer that a snapshot lists. -/
def PeerSyncState.restored (peerId : ι) (offset : UInt64) : PeerSyncState ι where
  peerId := peerId
  state := .disconnected
  lastOffset := offset
  lastSync := none

/-- Insert the peers of a snapshot; those whose key does not decode are skipped. -/
def restorePeers (states : PeerTable ι) : List (String × UInt64) → Option (PeerTable ι)
  | [] => some states
  | (key, offset) :: peers =>
      match decodePeerId ids key with
      | none => none
      | some (.ok peerId) =>
          restorePeers (states.insert key (.restored peerId offset)) peers
      | some (.error _) => restorePeers states peers

/-- Restore from a snapshot. -/
def PeerSyncManager.restore (m : PeerSyncManager ι) (snapshot : SyncSnapshot) :
    Option (PeerSyncManager ι) :=
  (restorePeers ids m.peerStates snapshot.peers).map fun states =>
    { m with
      changes := snapshot.changes
      offset := snapshot.offset
      peerStates := states }

/-! ## What the operations do to the table -/

variable {ids}

/-- The key of an identifier decodes to it. -/
theorem decodePeerId_peerKey (hids : ids.Lawful) (id : ι) :
    decodePeerId ids (peerKey ids id) = some (.ok id) := by
  have hlength := ids.length_asBytes id
  have htake : (ids.asBytes id).take 32 = ids.asBytes id :=
    List.take_of_length_le (Nat.le_of_eq hlength)
  simp [decodePeerId, peerKey, base64UrlDecode_encode, hlength, htake, hids.fromBytes_asBytes]

theorem updatePeerState_lookup_self (m : PeerSyncManager ι) (id : ι) (state : SyncState) :
    (m.updatePeerState ids id state).peerStates.lookup (peerKey ids id) =
      some { (m.peerStates.lookup (peerKey ids id)).getD (.new id) with state := state } :=
  AList.lookup_insert _

theorem updatePeerState_lookup_ne (m : PeerSyncManager ι) {id : ι} (state : SyncState)
    {key : String} (hne : key ≠ peerKey ids id) :
    (m.updatePeerState ids id state).peerStates.lookup key = m.peerStates.lookup key :=
  AList.lookup_insert_ne hne

/-- A restored table has the peers of the snapshot in place of those it had under
their keys, and keeps all others. -/
theorem restorePeers_spec {peers : List (String × UInt64)}
    (hnodup : (peers.map Prod.fst).Nodup)
    (hdecode : ∀ p ∈ peers, ∃ id, decodePeerId ids p.1 = some (.ok id)) (states : PeerTable ι) :
    ∃ states', restorePeers ids states peers = some states' ∧
      (∀ p ∈ peers, ∃ id, decodePeerId ids p.1 = some (.ok id) ∧
        states'.lookup p.1 = some (.restored id p.2)) ∧
      ∀ key, key ∉ peers.map Prod.fst → states'.lookup key = states.lookup key := by
  induction peers generalizing states with
  | nil => exact ⟨states, rfl, by simp, fun _ _ => rfl⟩
  | cons p peers ih =>
      rw [List.map_cons, List.nodup_cons] at hnodup
      rcases hdecode p List.mem_cons_self with ⟨id, hid⟩
      rcases ih hnodup.2 (fun q hq => hdecode q (List.mem_cons_of_mem _ hq))
        (states.insert p.1 (.restored id p.2)) with ⟨states', hrestore, hin, hout⟩
      refine ⟨states', by rw [restorePeers, hid]; exact hrestore, ?_, ?_⟩
      · intro q hq
        rcases List.mem_cons.mp hq with rfl | hq
        · exact ⟨id, hid, by rw [hout q.1 hnodup.1, AList.lookup_insert]⟩
        · exact hin q hq
      · intro key hkey
        rw [List.map_cons, List.mem_cons, not_or] at hkey
        rw [hout key hkey.2, AList.lookup_insert_ne hkey.1]

/-- Every key of a table decodes to the identifier that is stored under it. -/
def PeerTable.Keyed (ids : EndpointIds ι) (states : PeerTable ι) : Prop :=
  ∀ key st, states.lookup key = some st → decodePeerId ids key = some (.ok st.peerId)

theorem PeerTable.Keyed.empty : PeerTable.Keyed ids (∅ : PeerTable ι) := by
  intro key st hlookup
  simp at hlookup

/-- An entry whose key decodes to its identifier keeps the table keyed. -/
theorem PeerTable.Keyed.insert {states : PeerTable ι} (h : PeerTable.Keyed ids states)
    {key : String} {entry : PeerSyncState ι}
    (hdecode : decodePeerId ids key = some (.ok entry.peerId)) :
    PeerTable.Keyed ids (states.insert key entry) := by
  intro key' st hlookup
  by_cases heq : key' = key
  · subst heq
    rw [AList.lookup_insert] at hlookup
    exact Option.some.inj hlookup ▸ hdecode
  · rw [AList.lookup_insert_ne heq] at hlookup
    exact h key' st hlookup

/-- Updating the state of a peer keeps the table keyed. -/
theorem PeerTable.Keyed.updatePeerState (hids : ids.Lawful) {m : PeerSyncManager ι}
    (h : PeerTable.Keyed ids m.peerStates) (id : ι) (state : SyncState) :
    PeerTable.Keyed ids (m.updatePeerState ids id state).peerStates := by
  apply h.insert
  have hkey := decodePeerId_peerKey hids id
  cases hlookup : m.peerStates.lookup (peerKey ids id) with
  | none => exact hkey
  | some st => exact h _ st hlookup

/-- Restoring any snapshot keeps the table keyed. -/
theorem PeerTable.Keyed.restorePeers {states states' : PeerTable ι}
    {peers : List (String × UInt64)} (h : PeerTable.Keyed ids states)
    (hrestore : IrohSync.restorePeers ids states peers = some states') :
    PeerTable.Keyed ids states' := by
  induction peers generalizing states with
  | nil => exact Option.some.inj hrestore ▸ h
  | cons p peers ih =>
      rw [IrohSync.restorePeers] at hrestore
      split at hrestore
      · contradiction
      · next peerId hdecode => exact ih (h.insert hdecode) hrestore
      · exact ih h hrestore

/-! ## What a snapshot lists -/

/-- A snapshot lists the last offset of every peer. -/
theorem mem_snapshot_peers {m : PeerSyncManager ι} {p : String × UInt64} :
    p ∈ m.snapshot.peers ↔ ∃ st, m.peerStates.lookup p.1 = some st ∧ st.lastOffset = p.2 := by
  unfold PeerSyncManager.snapshot
  rw [List.mem_map]
  constructor
  · rintro ⟨⟨key, st⟩, hentry, rfl⟩
    exact ⟨st, AList.mem_lookup_iff.mpr hentry, rfl⟩
  · rintro ⟨st, hlookup, hoffset⟩
    exact ⟨⟨p.1, st⟩, AList.mem_lookup_iff.mp hlookup, by rw [hoffset]⟩

/-- A snapshot lists every key of the table. -/
theorem mem_snapshot_keys {m : PeerSyncManager ι} {key : String} :
    key ∈ m.snapshot.peers.map Prod.fst ↔ (m.peerStates.lookup key).isSome := by
  rw [List.mem_map, Option.isSome_iff_exists]
  constructor
  · rintro ⟨p, hp, rfl⟩
    rcases mem_snapshot_peers.mp hp with ⟨st, hlookup, _⟩
    exact ⟨st, hlookup⟩
  · rintro ⟨st, hlookup⟩
    exact ⟨(key, st.lastOffset), mem_snapshot_peers.mpr ⟨st, hlookup, rfl⟩, rfl⟩

/-- No peer is listed twice. -/
theorem snapshot_keys_nodup (m : PeerSyncManager ι) : (m.snapshot.peers.map Prod.fst).Nodup := by
  have hkeys := m.peerStates.nodupKeys
  rw [List.NodupKeys, List.keys] at hkeys
  simpa [PeerSyncManager.snapshot, Function.comp_def] using hkeys

/-- Two lists of distinct keys with the same entries are the same up to order. -/
theorem snapshot_peers_perm {m m' : PeerSyncManager ι}
    (h : ∀ key, (m.peerStates.lookup key).map PeerSyncState.lastOffset =
      (m'.peerStates.lookup key).map PeerSyncState.lastOffset) :
    m.snapshot.peers.Perm m'.snapshot.peers := by
  apply (List.perm_ext_iff_of_nodup (snapshot_keys_nodup m).of_map
    (snapshot_keys_nodup m').of_map).mpr
  intro p
  rw [mem_snapshot_peers, mem_snapshot_peers]
  simpa [Option.map_eq_some_iff] using congrArg (· = some p.2) (h p.1)

/-- The known peers are those stored under some key. -/
theorem mem_getPeerStates {m : PeerSyncManager ι} {st : PeerSyncState ι} :
    st ∈ m.getPeerStates ↔ ∃ key, m.peerStates.lookup key = some st := by
  unfold PeerSyncManager.getPeerStates
  rw [List.mem_map]
  constructor
  · rintro ⟨⟨key, st'⟩, hentry, rfl⟩
    exact ⟨key, AList.mem_lookup_iff.mpr hentry⟩
  · rintro ⟨key, hlookup⟩
    exact ⟨⟨key, st⟩, AList.mem_lookup_iff.mp hlookup, rfl⟩

/-- A snapshot of a keyed table is restored: its peers take the place of those
stored under their keys, and all others stay. -/
theorem restore_spec {m m₀ : PeerSyncManager ι} (hkeyed : PeerTable.Keyed ids m₀.peerStates)
    {s : SyncSnapshot} (hs : s.Same m₀.snapshot) :
    ∃ m', m.restore ids s = some m' ∧ m'.changes = s.changes ∧ m'.offset = s.offset ∧
      m'.maxChanges = m.maxChanges ∧
      (∀ p ∈ s.peers, ∃ id, decodePeerId ids p.1 = some (.ok id) ∧
        m'.peerStates.lookup p.1 = some (.restored id p.2)) ∧
      ∀ key, key ∉ s.peers.map Prod.fst →
        m'.peerStates.lookup key = m.peerStates.lookup key := by
  have hnodup : (s.peers.map Prod.fst).Nodup :=
    (hs.peers.map Prod.fst).nodup_iff.mpr (snapshot_keys_nodup m₀)
  have hdecode : ∀ p ∈ s.peers, ∃ id, decodePeerId ids p.1 = some (.ok id) := by
    intro p hp
    rcases mem_snapshot_peers.mp (hs.peers.mem_iff.mp hp) with ⟨st, hlookup, _⟩
    exact ⟨st.peerId, hkeyed p.1 st hlookup⟩
  rcases restorePeers_spec hnodup hdecode m.peerStates with ⟨states, hrestore, hin, hout⟩
  refine ⟨{ m with changes := s.changes, offset := s.offset, peerStates := states }, ?_, rfl,
    rfl, rfl, hin, hout⟩
  rw [PeerSyncManager.restore, hrestore, Option.map_some]

end IrohSync
