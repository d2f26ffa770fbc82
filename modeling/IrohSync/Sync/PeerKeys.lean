import IrohSync.Lib.Machine
import IrohSync.Sync.Restore

/-!
# The keys of peers

A restore takes the keys of peers from the snapshot and decodes each by a decoder that
accepts several spellings of the same bytes, looks at the first 32 of them and stores the
peer under the key as it was given.  An update encodes the key anew.

Main results:

- Theorem {lit}`restorePeers_lookup`: what restoring any list of peers makes of a table.
- Theorem {lit}`restoresExactly_iff`: which snapshots restore exactly the peers that their
  keys encode.
- Theorem {lit}`oneEntry_iff`: in which runs every peer has one entry, under its own key.
-/

namespace IrohSync

open FileIo Machine

variable {ι : Type} {ids : EndpointIds ι}

/-! ## Restoring any list of peers -/

/-- A list of peers is restored if no key of it makes the slice panic. -/
theorem restorePeers_isSome_iff {peers : List (String × UInt64)} (states : PeerTable ι) :
    (restorePeers ids states peers).isSome ↔ ∀ p ∈ peers, decodePeerId ids p.1 ≠ none := by
  induction peers generalizing states with
  | nil => simp [restorePeers]
  | cons p peers ih =>
      rw [List.forall_mem_cons, restorePeers]
      cases hdecode : decodePeerId ids p.1 with
      | none => simp
      | some result =>
          cases result with
          | error e => simp [ih]
          | ok id => simp [ih]

/-- A restored table has under every key that was listed and decodes the peer that it
decodes to, and under every other key what it had. -/
theorem restorePeers_lookup {states states' : PeerTable ι} {peers : List (String × UInt64)}
    (hrestore : restorePeers ids states peers = some states') (key : String) :
    (∀ id, key ∈ peers.map Prod.fst → decodePeerId ids key = some (.ok id) →
      ∃ offset, (key, offset) ∈ peers ∧ states'.lookup key = some (.restored id offset)) ∧
    ((∀ id, key ∈ peers.map Prod.fst → decodePeerId ids key ≠ some (.ok id)) →
      states'.lookup key = states.lookup key) := by
  induction peers generalizing states with
  | nil =>
      obtain rfl : states = states' := Option.some.inj hrestore
      exact ⟨fun id hkey => absurd hkey List.not_mem_nil, fun _ => rfl⟩
  | cons p peers ih =>
      rcases p with ⟨key', offset⟩
      rw [restorePeers] at hrestore
      cases hdecode : decodePeerId ids key' with
      | none =>
          rw [hdecode] at hrestore
          contradiction
      | some result =>
          rw [hdecode] at hrestore
          cases result with
          | error e =>
              rcases ih hrestore with ⟨hin, hout⟩
              constructor
              · intro id hkey hid
                have hne : key ≠ key' := by
                  rintro rfl
                  rw [hid] at hdecode
                  simp at hdecode
                rcases hin id ((List.mem_cons.mp hkey).resolve_left hne) hid with
                  ⟨offset', hmem, hlookup⟩
                exact ⟨offset', List.mem_cons_of_mem _ hmem, hlookup⟩
              · exact fun hnone => hout fun id hkey => hnone id (List.mem_cons_of_mem _ hkey)
          | ok id' =>
              rcases ih hrestore with ⟨hin, hout⟩
              constructor
              · intro id hkey hid
                by_cases hlater : key ∈ peers.map Prod.fst
                · rcases hin id hlater hid with ⟨offset', hmem, hlookup⟩
                  exact ⟨offset', List.mem_cons_of_mem _ hmem, hlookup⟩
                · -- this is the last peer of the list with the key
                  obtain rfl : key = key' := (List.mem_cons.mp hkey).resolve_right hlater
                  rw [hid, Option.some.injEq, Except.ok.injEq] at hdecode
                  refine ⟨offset, List.mem_cons_self, ?_⟩
                  rw [hout fun _ hkey => absurd hkey hlater, AList.lookup_insert, hdecode]
              · intro hnone
                have hne : key ≠ key' := by
                  rintro rfl
                  exact hnone id' List.mem_cons_self hdecode
                rw [hout fun id hkey => hnone id (List.mem_cons_of_mem _ hkey),
                  AList.lookup_insert_ne hne]

/-! ## Exactly the encoded peers -/

/-- A key is the encoding of exactly 32 bytes, and these are a valid identifier. -/
def Encodes32 (ids : EndpointIds ι) (key : String) (id : ι) : Prop :=
  ∃ bytes, bytes.length = 32 ∧ key = base64UrlEncode bytes ∧ ids.fromBytes bytes = .ok id

/-- A key that encodes an identifier decodes to it. -/
theorem Encodes32.decodePeerId {key : String} {id : ι} (h : Encodes32 ids key id) :
    decodePeerId ids key = some (.ok id) := by
  rcases h with ⟨bytes, hlength, rfl, hvalid⟩
  have htake : bytes.take 32 = bytes := List.take_of_length_le (Nat.le_of_eq hlength)
  simp [IrohSync.decodePeerId, base64UrlDecode_encode, hlength, htake, hvalid]

/-- A restore returns, takes the offset and the changes of the snapshot, has a peer under
each listed key that encodes one and leaves all other keys alone. -/
def RestoresExactly (ids : EndpointIds ι) (m : PeerSyncManager ι) (s : SyncSnapshot) : Prop :=
  ∃ m', m.restore ids s = some m' ∧ m'.offset = s.offset ∧ m'.changes = s.changes ∧
    ∀ key,
      (∀ id, key ∈ s.peers.map Prod.fst → Encodes32 ids key id →
        ∃ offset, (key, offset) ∈ s.peers ∧
          m'.peerStates.lookup key = some (.restored id offset)) ∧
      ((∀ id, key ∈ s.peers.map Prod.fst → ¬ Encodes32 ids key id) →
        m'.peerStates.lookup key = m.peerStates.lookup key)

/-- Every key that decodes at all decodes to 32 bytes or more, and if the first 32 of them
are a valid identifier the key is the encoding of just these. -/
def SyncSnapshot.KeysWellFormed (ids : EndpointIds ι) (s : SyncSnapshot) : Prop :=
  ∀ p ∈ s.peers, ∀ bytes, base64UrlDecode p.1 = .ok bytes → 32 ≤ bytes.length ∧
    ∀ id, ids.fromBytes (bytes.take 32) = .ok id → p.1 = base64UrlEncode (bytes.take 32)

/-- Decoding a key comes to an end if it is not too short. -/
theorem decodePeerId_ne_none_iff {key : String} :
    decodePeerId ids key ≠ none ↔
      ∀ bytes, base64UrlDecode key = .ok bytes → 32 ≤ bytes.length := by
  unfold decodePeerId
  cases hdecode : base64UrlDecode key with
  | error e => simp
  | ok bytes =>
      by_cases hshort : bytes.length < 32
      · simp [hshort]
      · have hlong : 32 ≤ bytes.length := Nat.le_of_not_lt hshort
        cases hvalid : ids.fromBytes (bytes.take 32) with
        | error e => simp [hshort, hlong, hvalid]
        | ok id => simp [hshort, hlong, hvalid]

/-- A key is decoded to the identifier in its first 32 bytes. -/
theorem decodePeerId_eq_ok_iff {key : String} {id : ι} :
    decodePeerId ids key = some (.ok id) ↔
      ∃ bytes, base64UrlDecode key = .ok bytes ∧ 32 ≤ bytes.length ∧
        ids.fromBytes (bytes.take 32) = .ok id := by
  unfold decodePeerId
  cases hdecode : base64UrlDecode key with
  | error e => simp
  | ok bytes =>
      by_cases hshort : bytes.length < 32
      · have hnot : ¬ 32 ≤ bytes.length := Nat.not_le.mpr hshort
        simp [hshort, hnot]
      · have hlong : 32 ≤ bytes.length := Nat.le_of_not_lt hshort
        cases hvalid : ids.fromBytes (bytes.take 32) with
        | error e => simp [hshort, hvalid]
        | ok id' => simp [hshort, hlong, hvalid]

/-- The keys are well-formed if none is too short and every one that is accepted encodes
what it is decoded to. -/
theorem keysWellFormed_iff {s : SyncSnapshot} :
    s.KeysWellFormed ids ↔ (∀ p ∈ s.peers, decodePeerId ids p.1 ≠ none) ∧
      ∀ p ∈ s.peers, ∀ id, decodePeerId ids p.1 = some (.ok id) → Encodes32 ids p.1 id := by
  constructor
  · intro h
    refine ⟨fun p hp => decodePeerId_ne_none_iff.mpr fun bytes hdecode => (h p hp _ hdecode).1,
      fun p hp id haccepted => ?_⟩
    rcases decodePeerId_eq_ok_iff.mp haccepted with ⟨bytes, hdecode, hlong, hvalid⟩
    exact ⟨bytes.take 32, List.length_take_of_le hlong, (h p hp _ hdecode).2 id hvalid, hvalid⟩
  · rintro ⟨hlong, haccepted⟩ p hp bytes hdecode
    have hlength := decodePeerId_ne_none_iff.mp (hlong p hp) bytes hdecode
    refine ⟨hlength, fun id hvalid => ?_⟩
    have haccept : decodePeerId ids p.1 = some (.ok id) :=
      decodePeerId_eq_ok_iff.mpr ⟨bytes, hdecode, hlength, hvalid⟩
    rcases haccepted p hp id haccept with ⟨bytes', hlength', hkey, _⟩
    rw [hkey, base64UrlDecode_encode, Except.ok.injEq] at hdecode
    rw [← hdecode, List.take_of_length_le (Nat.le_of_eq hlength'), hkey]

/-- Over every manager a snapshot restores exactly the peers that its keys encode if and
only if its keys are well-formed. -/
theorem restoresExactly_iff (ids : EndpointIds ι) (s : SyncSnapshot) :
    (∀ m : PeerSyncManager ι, RestoresExactly ids m s) ↔ s.KeysWellFormed ids := by
  rw [keysWellFormed_iff]
  constructor
  · intro hexact
    rcases hexact (.new 0) with ⟨m', hrestore, _, _, hpeers⟩
    rcases Option.map_eq_some_iff.mp hrestore with ⟨states, hstates, rfl⟩
    have hsome : (restorePeers ids (PeerSyncManager.new 0).peerStates s.peers).isSome :=
      Option.isSome_iff_exists.mpr ⟨states, hstates⟩
    refine ⟨(restorePeers_isSome_iff _).mp hsome, fun p hp id haccepted => ?_⟩
    have hkey : p.1 ∈ s.peers.map Prod.fst := List.mem_map_of_mem hp
    rcases (restorePeers_lookup hstates p.1).1 id hkey haccepted with ⟨offset, _, hlookup⟩
    by_contra hnot
    have hskipped := (hpeers p.1).2 fun id' _ hencodes => ?_
    · -- a new manager has no peer under the key
      have hnone : (PeerSyncManager.new 0 : PeerSyncManager ι).peerStates.lookup p.1 = none :=
        AList.lookup_empty _
      rw [hnone] at hskipped
      exact Option.some_ne_none _ (hlookup.symm.trans hskipped)
    · have hsame := hencodes.decodePeerId
      rw [haccepted, Option.some.injEq, Except.ok.injEq] at hsame
      exact hnot (hsame ▸ hencodes)
  · rintro ⟨hlong, haccepted⟩ m
    rcases Option.isSome_iff_exists.mp ((restorePeers_isSome_iff m.peerStates).mpr hlong) with
      ⟨states, hstates⟩
    refine ⟨_, Option.map_eq_some_iff.mpr ⟨states, hstates, rfl⟩, rfl, rfl, fun key => ?_⟩
    have hlookup := restorePeers_lookup hstates key
    refine ⟨fun id hkey hencodes => hlookup.1 id hkey hencodes.decodePeerId, fun hnone => ?_⟩
    refine hlookup.2 fun id hkey haccept => ?_
    rcases List.mem_map.mp hkey with ⟨p, hp, rfl⟩
    exact hnone id hkey (haccepted p hp id haccept)

/-- A key of no symbols: the slice of the first 32 bytes panics. -/
theorem not_restoresExactly_short :
    (PeerSyncManager.new 100).restore sampleIds ⟨5, [], [("", 0)]⟩ = none ∧
      ¬ ∀ m, RestoresExactly sampleIds m ⟨5, [], [("", 0)]⟩ := by
  have hpanic : (PeerSyncManager.new 100).restore sampleIds ⟨5, [], [("", 0)]⟩ = none := rfl
  refine ⟨hpanic, fun hexact => ?_⟩
  rcases hexact (.new 100) with ⟨m', hrestore, _⟩
  exact Option.some_ne_none m' (hrestore.symm.trans hpanic)

/-! ## One entry for each peer -/

variable (ids) in
/-- The peers of a snapshot in front of the first key that makes a restore panic. -/
def restorable (peers : List (String × UInt64)) : List (String × UInt64) :=
  peers.takeWhile fun p => (decodePeerId ids p.1).isSome

variable (ids) in
/-- What a restore leaves behind, also where it panics: the log and the offset are replaced, and
the peers in front of the key at which it panics are inserted. -/
def PeerSyncManager.afterRestore (m : PeerSyncManager ι) (snapshot : SyncSnapshot) :
    PeerSyncManager ι :=
  { m with
    changes := snapshot.changes
    offset := snapshot.offset
    peerStates :=
      (restorePeers ids m.peerStates (restorable ids snapshot.peers)).getD m.peerStates }

/-- Where a restore returns, it leaves behind what it returns. -/
theorem afterRestore_of_restore {m m' : PeerSyncManager ι} {snapshot : SyncSnapshot}
    (hrestore : m.restore ids snapshot = some m') : m.afterRestore ids snapshot = m' := by
  rcases Option.map_eq_some_iff.mp hrestore with ⟨states, hstates, rfl⟩
  have hlong := (restorePeers_isSome_iff m.peerStates).mp (Option.isSome_of_eq_some hstates)
  have hall : restorable ids snapshot.peers = snapshot.peers :=
    List.takeWhile_eq_self_iff.mpr fun p hp => Option.isSome_iff_ne_none.mpr (hlong p hp)
  rw [PeerSyncManager.afterRestore, hall, hstates, Option.getD_some]

/-- The peers in front of the key that makes a restore panic are restored. -/
theorem restorePeers_restorable (states : PeerTable ι) (peers : List (String × UInt64)) :
    ∃ states', restorePeers ids states (restorable ids peers) = some states' := by
  refine Option.isSome_iff_exists.mp ((restorePeers_isSome_iff states).mpr fun p hp => ?_)
  rw [restorable] at hp
  exact Option.isSome_iff_ne_none.mp (List.mem_takeWhile_imp hp :)

/-- An update of a peer's state, or a restore. -/
inductive PeerOp (ι : Type) where
  | updatePeerState (peerId : ι) (state : SyncState)
  | restore (snapshot : SyncSnapshot)

/-- The manager under such operations. -/
def peerMachine (ids : EndpointIds ι) : Machine (PeerSyncManager ι) (PeerOp ι) Unit where
  next m op :=
    match op with
    | .updatePeerState peerId state => m.updatePeerState ids peerId state
    | .restore snapshot => m.afterRestore ids snapshot
  answer _ _ := ()

/-- Every key is the encoding of the peer stored under it, so that every peer is listed
once and an update of its state reaches its entry. -/
structure OneEntry (ids : EndpointIds ι) (m : PeerSyncManager ι) : Prop where
  canonical : ∀ key st, m.peerStates.lookup key = some st → key = peerKey ids st.peerId
  once : (m.getPeerStates.map PeerSyncState.peerId).Nodup
  reached : ∀ key st, m.peerStates.lookup key = some st → ∀ state,
    (m.updatePeerState ids st.peerId state).peerStates.lookup key =
      some { st with state := state }

/-- The keys that a restore accepts, until it panics, are the encodings of the peers that they
are decoded to. -/
def AcceptsCanonical (ids : EndpointIds ι) : PeerOp ι → Prop
  | .updatePeerState _ _ => True
  | .restore s => ∀ p ∈ restorable ids s.peers, ∀ id, decodePeerId ids p.1 = some (.ok id) →
      p.1 = peerKey ids id

/-- Canonical keys are enough. -/
theorem oneEntry_of_canonical {m : PeerSyncManager ι}
    (h : ∀ key st, m.peerStates.lookup key = some st → key = peerKey ids st.peerId) :
    OneEntry ids m where
  canonical := h
  once := by
    have hkeys := m.peerStates.nodupKeys
    rw [List.NodupKeys, List.keys] at hkeys
    have hsame : m.peerStates.entries.map Sigma.fst =
        (m.getPeerStates.map PeerSyncState.peerId).map (peerKey ids) := by
      unfold PeerSyncManager.getPeerStates
      rw [List.map_map, List.map_map]
      exact List.map_congr_left fun entry hentry =>
        h entry.1 entry.2 (AList.mem_lookup_iff.mpr hentry)
    rw [hsame] at hkeys
    exact hkeys.of_map
  reached := by
    intro key st hlookup state
    have hkey := h key st hlookup
    rw [hkey] at hlookup ⊢
    rw [updatePeerState_lookup_self, hlookup, Option.getD_some]

/-- Updating the state of a peer keeps the keys canonical. -/
theorem canonical_updatePeerState {m : PeerSyncManager ι}
    (h : ∀ key st, m.peerStates.lookup key = some st → key = peerKey ids st.peerId) (id : ι)
    (state : SyncState) (key : String) (st : PeerSyncState ι)
    (hlookup : (m.updatePeerState ids id state).peerStates.lookup key = some st) :
    key = peerKey ids st.peerId := by
  by_cases hself : key = peerKey ids id
  · subst hself
    rw [updatePeerState_lookup_self, Option.some.injEq] at hlookup
    subst hlookup
    cases hbefore : m.peerStates.lookup (peerKey ids id) with
    | none => rfl
    | some st => exact h _ st hbefore
  · rw [updatePeerState_lookup_ne m state hself] at hlookup
    exact h key st hlookup

/-- A restore keeps the keys canonical exactly if it accepts only such keys. -/
theorem canonical_restorePeers_iff {states states' : PeerTable ι}
    {peers : List (String × UInt64)}
    (h : ∀ key st, states.lookup key = some st → key = peerKey ids st.peerId)
    (hrestore : restorePeers ids states peers = some states') :
    (∀ key st, states'.lookup key = some st → key = peerKey ids st.peerId) ↔
      ∀ p ∈ peers, ∀ id, decodePeerId ids p.1 = some (.ok id) → p.1 = peerKey ids id := by
  constructor
  · intro hafter p hp id haccepted
    have hkey : p.1 ∈ peers.map Prod.fst := List.mem_map_of_mem hp
    rcases (restorePeers_lookup hrestore p.1).1 id hkey haccepted with ⟨offset, _, hlookup⟩
    exact hafter p.1 _ hlookup
  · intro haccepts key st hlookup
    rcases restorePeers_lookup hrestore key with ⟨hin, hout⟩
    by_cases haccepted : ∃ id, key ∈ peers.map Prod.fst ∧ decodePeerId ids key = some (.ok id)
    · rcases haccepted with ⟨id, hkey, hdecode⟩
      rcases hin id hkey hdecode with ⟨offset, hmem, hrestored⟩
      rw [hrestored, Option.some.injEq] at hlookup
      subst hlookup
      exact haccepts (key, offset) hmem id hdecode
    · rw [hout fun id hkey hdecode => haccepted ⟨id, hkey, hdecode⟩] at hlookup
      exact h key st hlookup

/-- One operation keeps one entry for each peer exactly if it accepts only canonical
keys. -/
theorem oneEntry_next_iff {m : PeerSyncManager ι} (h : OneEntry ids m) (op : PeerOp ι) :
    OneEntry ids ((peerMachine ids).next m op) ↔ AcceptsCanonical ids op := by
  cases op with
  | updatePeerState id state => exact ⟨fun _ => trivial, fun _ =>
      oneEntry_of_canonical (canonical_updatePeerState h.canonical id state)⟩
  | restore s =>
      rcases restorePeers_restorable m.peerStates s.peers with ⟨states, hrestore⟩
      have hiff := canonical_restorePeers_iff h.canonical hrestore
      simp only [peerMachine, PeerSyncManager.afterRestore, hrestore, Option.getD_some]
      exact ⟨fun hafter => hiff.mp hafter.canonical,
        fun haccepts => oneEntry_of_canonical (hiff.mpr haccepts)⟩

/-- In every state of a run there is one entry for each peer, under its own key, exactly if
every restore accepts only the encodings of the peers, be it that it returns or that it panics
behind them. -/
theorem oneEntry_iff (ids : EndpointIds ι) (maxChanges : UInt64) (ops : List (PeerOp ι)) :
    (peerMachine ids).Along (fun m op => OneEntry ids ((peerMachine ids).next m op))
        (.new maxChanges) ops ↔
      ∀ op ∈ ops, AcceptsCanonical ids op := by
  rw [← along_events_iff (M := peerMachine ids) (.new maxChanges)]
  refine along_iff (I := OneEntry ids) (fun _ _ _ h => h) (fun m op h => oneEntry_next_iff h op)
    (oneEntry_of_canonical fun key st hlookup => ?_) ops
  rw [PeerSyncManager.new, AList.lookup_empty] at hlookup
  contradiction

/-- The encoding of a peer's identifier and any bytes behind it is decoded to the peer. -/
theorem decodePeerId_longer (hids : ids.Lawful) (id : ι) (extra : Bytes) :
    decodePeerId ids (base64UrlEncode (ids.asBytes id ++ extra)) = some (.ok id) := by
  have hlength := ids.length_asBytes id
  refine decodePeerId_eq_ok_iff.mpr ⟨_, base64UrlDecode_encode _, ?_, ?_⟩
  · rw [List.length_append, hlength]
    exact Nat.le_add_right _ _
  · rw [List.take_append_of_le_length (Nat.le_of_eq hlength.symm),
      List.take_of_length_le (Nat.le_of_eq hlength), hids.fromBytes_asBytes]

/-- A key that encodes one more byte than a peer's identifier is another key of the peer,
which is then listed twice. -/
theorem not_oneEntry_longer :
    ¬ (peerMachine sampleIds).Along
      (fun m op => OneEntry sampleIds ((peerMachine sampleIds).next m op)) (.new 100)
      [.updatePeerState () .syncing,
        .restore ⟨0, [], [(base64UrlEncode (sampleIds.asBytes () ++ [0]), 7)]⟩] := by
  intro halong
  have hdecode := decodePeerId_longer sampleIds_lawful () [0]
  have haccepts := (oneEntry_next_iff halong.1 _).mp halong.2.1
  have hfront : (base64UrlEncode (sampleIds.asBytes () ++ [0]), 7) ∈ restorable sampleIds
      [(base64UrlEncode (sampleIds.asBytes () ++ [0]), 7)] := by
    rw [restorable, List.takeWhile_cons, hdecode]
    exact List.mem_cons_self
  have hkey := haccepts _ hfront () hdecode
  exact absurd (base64UrlEncode_injective hkey) (by decide)

end IrohSync
