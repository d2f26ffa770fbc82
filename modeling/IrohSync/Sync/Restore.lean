import IrohSync.Lib.Machine
import IrohSync.Sync.PeerStates

/-!
# Restoring a snapshot

A manager that is restored from a snapshot answers every further operation as
the manager did from which the snapshot was taken.  Restoring over a manager
that knows peers already leaves those the snapshot does not list.

Main results:

- Theorem {lit}`restore_resumes`: a restored manager resumes the run.
- Theorem {lit}`restore_replaces_iff`: exactly which managers are replaced as a
  whole.
-/

namespace IrohSync

variable {ι : Type}

/-! ## Runs -/

/-- The operations of a manager. -/
inductive SyncOp (ι : Type) where
  | recordChange (change : Change)
  | applyChanges (changes : List Change)
  | updatePeerState (peerId : ι) (state : SyncState)

/-- What an operation returns. -/
inductive SyncAnswer where
  | recorded (offset : UInt64)
  | applied (result : Except Error UInt64)
  | updated

/-- The sync manager as a machine. -/
def syncMachine (ids : EndpointIds ι) :
    Machine (PeerSyncManager ι) (SyncOp ι) SyncAnswer where
  next m op :=
    match op with
    | .recordChange change => { m with toSyncManager := (m.recordChange change).1 }
    | .applyChanges changes => { m with toSyncManager := (m.applyChanges changes).1 }
    | .updatePeerState peerId state => m.updatePeerState ids peerId state
  answer m op :=
    match op with
    | .recordChange change => .recorded (m.recordChange change).2
    | .applyChanges changes => .applied (m.applyChanges changes).2
    | .updatePeerState _ _ => .updated

/-- Operations keep the table keyed. -/
theorem PeerTable.Keyed.next {ids : EndpointIds ι} (hids : ids.Lawful) {m : PeerSyncManager ι}
    (h : PeerTable.Keyed ids m.peerStates) (op : SyncOp ι) :
    PeerTable.Keyed ids ((syncMachine ids).next m op).peerStates := by
  cases op with
  | recordChange change => exact h
  | applyChanges changes => exact h
  | updatePeerState peerId state => exact h.updatePeerState hids peerId state

/-- The table stays keyed along a run. -/
theorem keyed_run {ids : EndpointIds ι} (hids : ids.Lawful) (maxChanges : UInt64)
    (ops : List (SyncOp ι)) :
    PeerTable.Keyed ids ((syncMachine ids).run (.new maxChanges) ops).peerStates :=
  Machine.run_invariant (I := fun m : PeerSyncManager ι => PeerTable.Keyed ids m.peerStates)
    (fun _ op h _ => h.next hids op) PeerTable.Keyed.empty (Machine.along_trivial _ ops)

/-- No operation changes the capacity. -/
theorem maxChanges_run {ids : EndpointIds ι} (maxChanges : UInt64) (ops : List (SyncOp ι)) :
    ((syncMachine ids).run (.new maxChanges) ops).maxChanges = maxChanges := by
  have hstep : ∀ (m : PeerSyncManager ι) (op : SyncOp ι), m.maxChanges = maxChanges → True →
      ((syncMachine ids).next m op).maxChanges = maxChanges := by
    intro m op h _
    cases op <;> exact h
  exact Machine.run_invariant (I := fun m : PeerSyncManager ι => m.maxChanges = maxChanges)
    hstep rfl (Machine.along_trivial _ ops)

/-! ## Resuming a run -/

/-- Two managers with the same log and the same last offset of every peer. -/
structure Resumes (m m' : PeerSyncManager ι) : Prop where
  manager : m.toSyncManager = m'.toSyncManager
  lastOffset : ∀ key, (m.peerStates.lookup key).map PeerSyncState.lastOffset =
    (m'.peerStates.lookup key).map PeerSyncState.lastOffset

/-- Everything that can be seen of two managers but the states of their peers. -/
structure SeenAlike (m m' : PeerSyncManager ι) : Prop where
  offset : m.offset = m'.offset
  changesSince : ∀ offset, m.getChangesSince offset = m'.getChangesSince offset
  snapshot : m.snapshot.Same m'.snapshot

theorem Resumes.seenAlike {m m' : PeerSyncManager ι} (h : Resumes m m') : SeenAlike m m' where
  offset := by rw [h.manager]
  changesSince := fun offset => by rw [h.manager]
  snapshot :=
    { offset := by simp only [PeerSyncManager.snapshot, h.manager]
      changes := by simp only [PeerSyncManager.snapshot, h.manager]
      peers := snapshot_peers_perm h.lastOffset }

/-- Operations keep two managers alike. -/
theorem Resumes.next {ids : EndpointIds ι} {m m' : PeerSyncManager ι} (h : Resumes m m')
    (op : SyncOp ι) : Resumes ((syncMachine ids).next m op) ((syncMachine ids).next m' op) := by
  cases op with
  | recordChange change => exact ⟨by simp only [syncMachine, h.manager], h.lastOffset⟩
  | applyChanges changes => exact ⟨by simp only [syncMachine, h.manager], h.lastOffset⟩
  | updatePeerState peerId state =>
      refine ⟨h.manager, fun key => ?_⟩
      simp only [syncMachine]
      by_cases hkey : key = peerKey ids peerId
      · subst hkey
        have hoffset := h.lastOffset (peerKey ids peerId)
        rw [updatePeerState_lookup_self, updatePeerState_lookup_self]
        -- a new entry begins with the same last offset on both sides
        cases hlookup : m.peerStates.lookup (peerKey ids peerId) <;>
          cases hlookup' : m'.peerStates.lookup (peerKey ids peerId) <;>
          simp_all
      · rw [updatePeerState_lookup_ne m state hkey, updatePeerState_lookup_ne m' state hkey]
        exact h.lastOffset key

/-- Operations on two managers that are alike return the same. -/
theorem Resumes.answer {ids : EndpointIds ι} {m m' : PeerSyncManager ι} (h : Resumes m m')
    (op : SyncOp ι) : (syncMachine ids).answer m op = (syncMachine ids).answer m' op := by
  cases op with
  | recordChange change => simp only [syncMachine, h.manager]
  | applyChanges changes => simp only [syncMachine, h.manager]
  | updatePeerState peerId state => rfl

/-- A manager is given by its offset, its log and its capacity. -/
theorem manager_eq {m m' : SyncManager} (hoffset : m.offset = m'.offset)
    (hchanges : m.changes = m'.changes) (hmax : m.maxChanges = m'.maxChanges) : m = m' := by
  cases m
  cases m'
  simp_all

/-- A new manager that is restored from a snapshot resumes the run. -/
theorem resumes_restore {ids : EndpointIds ι} {m : PeerSyncManager ι}
    (hkeyed : PeerTable.Keyed ids m.peerStates) {s : SyncSnapshot} (hs : s.Same m.snapshot) :
    ∃ m', (PeerSyncManager.new m.maxChanges).restore ids s = some m' ∧ Resumes m m' ∧
      ∀ p ∈ s.peers, ∃ st, m.peerStates.lookup p.1 = some st ∧
        m'.peerStates.lookup p.1 = some (.restored st.peerId p.2) := by
  rcases restore_spec hkeyed hs (m := .new m.maxChanges) with
    ⟨m', hrestore, hchanges, hoffset, hmax, hin, hout⟩
  have hpeers : ∀ p ∈ s.peers, ∃ st, m.peerStates.lookup p.1 = some st ∧ st.lastOffset = p.2 ∧
      m'.peerStates.lookup p.1 = some (.restored st.peerId p.2) := by
    intro p hp
    rcases mem_snapshot_peers.mp (hs.peers.mem_iff.mp hp) with ⟨st, hlookup, hlast⟩
    rcases hin p hp with ⟨id, hdecode, hlookup'⟩
    rw [hkeyed p.1 st hlookup, Option.some.injEq, Except.ok.injEq] at hdecode
    exact ⟨st, hlookup, hlast, hdecode ▸ hlookup'⟩
  refine ⟨m', hrestore, ⟨?_, fun key => ?_⟩, fun p hp => ?_⟩
  · exact manager_eq (hoffset.trans hs.offset).symm (hchanges.trans hs.changes).symm hmax.symm
  · cases hlookup : m.peerStates.lookup key with
    | none =>
        have hnot : key ∉ s.peers.map Prod.fst := by
          rw [(hs.peers.map Prod.fst).mem_iff, mem_snapshot_keys, hlookup]
          exact Bool.false_ne_true
        rw [hout key hnot]
        rfl
    | some st =>
        have hmem := hs.peers.mem_iff.mpr
          (mem_snapshot_peers.mpr ⟨st, hlookup, rfl⟩ : (key, st.lastOffset) ∈ m.snapshot.peers)
        rcases hpeers _ hmem with ⟨_, _, _, hlookup'⟩
        rw [hlookup']
        rfl
  · rcases hpeers p hp with ⟨st, hlookup, _, hlookup'⟩
    exact ⟨st, hlookup, hlookup'⟩

/-- The identifiers of a library that knows one endpoint, whose public key is the
base point of the curve. -/
def sampleIds : EndpointIds Unit where
  asBytes := fun _ => 0x58 :: List.replicate 31 0x66
  length_asBytes := fun _ => rfl
  fromBytes := fun bytes =>
    if bytes = 0x58 :: List.replicate 31 0x66 then .ok () else .error "invalid public key"

theorem sampleIds_lawful : sampleIds.Lawful where
  fromBytes_asBytes := fun _ => rfl

/-- After any run a new manager restored from a snapshot has every peer of it,
disconnected and under its identifier, and answers every further run as the
original manager does. -/
theorem restore_resumes (ids : EndpointIds ι) (hids : ids.Lawful) (maxChanges : UInt64)
    (ops : List (SyncOp ι)) (s : SyncSnapshot)
    (hs : s.Same ((syncMachine ids).run (.new maxChanges) ops).snapshot) :
    ∃ restored, (PeerSyncManager.new maxChanges).restore ids s = some restored ∧
      (∀ p ∈ s.peers, ∃ st,
        ((syncMachine ids).run (.new maxChanges) ops).peerStates.lookup p.1 = some st ∧
        restored.peerStates.lookup p.1 = some (.restored st.peerId p.2)) ∧
      ∀ more, (syncMachine ids).answers restored more =
          (syncMachine ids).answers ((syncMachine ids).run (.new maxChanges) ops) more ∧
        SeenAlike ((syncMachine ids).run ((syncMachine ids).run (.new maxChanges) ops) more)
          ((syncMachine ids).run restored more) := by
  have hmax : ((syncMachine ids).run (.new maxChanges) ops).maxChanges = maxChanges :=
    maxChanges_run maxChanges ops
  rcases resumes_restore (keyed_run hids maxChanges ops) hs with
    ⟨restored, hrestore, hresumes, hpeers⟩
  rw [hmax] at hrestore
  refine ⟨restored, hrestore, hpeers, fun more => ⟨?_, ?_⟩⟩
  · exact (Machine.answers_eq (R := Resumes) (Q := fun _ => True) (P := fun _ _ => True)
      (fun _ _ op h _ => h.next op) (fun _ _ op h _ _ => h.answer op) hresumes
      (fun _ _ => trivial) (Machine.along_trivial _ more)).symm
  · exact (Machine.run_related (R := Resumes) (fun _ _ op h => h.next op) hresumes more).seenAlike

/-- A manager that recorded a change and began to sync with a peer. -/
def busyManager : PeerSyncManager Unit :=
  (syncMachine sampleIds).run (.new 100)
    [.recordChange sampleChange, .updatePeerState () .syncing]

/-- A run with a change and a peer, resumed from its own snapshot. -/
theorem restore_resumes_sample :
    ∃ restored, (PeerSyncManager.new 100).restore sampleIds busyManager.snapshot =
        some restored ∧
      (∀ p ∈ busyManager.snapshot.peers, ∃ st, busyManager.peerStates.lookup p.1 = some st ∧
        restored.peerStates.lookup p.1 = some (.restored st.peerId p.2)) ∧
      ∀ more, (syncMachine sampleIds).answers restored more =
          (syncMachine sampleIds).answers busyManager more ∧
        SeenAlike ((syncMachine sampleIds).run busyManager more)
          ((syncMachine sampleIds).run restored more) :=
  restore_resumes sampleIds sampleIds_lawful 100 _ _ ⟨rfl, rfl, List.Perm.refl _⟩

/-! ## Restoring over a used manager -/

/-- The states that a manager with a given capacity can be in. -/
inductive PeerSyncManager.Reachable (ids : EndpointIds ι) (maxChanges : UInt64) :
    PeerSyncManager ι → Prop
  | new : Reachable ids maxChanges (.new maxChanges)
  | next {m : PeerSyncManager ι} (h : Reachable ids maxChanges m) (op : SyncOp ι) :
      Reachable ids maxChanges ((syncMachine ids).next m op)
  | restore {m m' : PeerSyncManager ι} (h : Reachable ids maxChanges m) (s : SyncSnapshot)
      (hrestore : m.restore ids s = some m') : Reachable ids maxChanges m'

/-- The table of a reachable manager is keyed. -/
theorem PeerSyncManager.Reachable.keyed {ids : EndpointIds ι} (hids : ids.Lawful)
    {maxChanges : UInt64} {m : PeerSyncManager ι} (h : m.Reachable ids maxChanges) :
    PeerTable.Keyed ids m.peerStates := by
  induction h with
  | new => exact PeerTable.Keyed.empty
  | next _ op ih => exact ih.next hids op
  | restore _ s hrestore ih =>
      rcases Option.map_eq_some_iff.mp hrestore with ⟨states, hstates, rfl⟩
      exact ih.restorePeers hstates

/-- Two managers restored from one snapshot cannot be told apart. -/
structure Indistinguishable (s : SyncSnapshot) (m m' : PeerSyncManager ι) : Prop where
  offset : m.offset = m'.offset
  changesSince : ∀ offset, m.getChangesSince offset = m'.getChangesSince offset
  peerStates : ∀ st, st ∈ m.getPeerStates ↔ st ∈ m'.getPeerStates
  snapshotLeft : m.snapshot.Same s
  snapshotRight : m'.snapshot.Same s

/-- Every peer that a manager knows is listed in a snapshot. -/
def PeerSyncManager.PeersListed (m : PeerSyncManager ι) (s : SyncSnapshot) : Prop :=
  ∀ key ∈ m.peerStates, key ∈ s.peers.map Prod.fst

/-- What a restored manager lists under a key that the snapshot has. -/
theorem restored_lookup {m' : PeerSyncManager ι} {ids : EndpointIds ι} {s : SyncSnapshot}
    (hin : ∀ p ∈ s.peers, ∃ id, decodePeerId ids p.1 = some (.ok id) ∧
      m'.peerStates.lookup p.1 = some (.restored id p.2)) {key : String}
    (hkey : key ∈ s.peers.map Prod.fst) :
    ∃ id offset, (key, offset) ∈ s.peers ∧ decodePeerId ids key = some (.ok id) ∧
      m'.peerStates.lookup key = some (.restored id offset) := by
  rcases List.mem_map.mp hkey with ⟨p, hp, rfl⟩
  rcases hin p hp with ⟨id, hdecode, hlookup⟩
  exact ⟨id, p.2, hp, hdecode, hlookup⟩

/-- A manager restored over gives the snapshot back exactly if it knew no other
peers. -/
theorem snapshot_same_iff {ids : EndpointIds ι} {m m₀ m' : PeerSyncManager ι}
    (hkeyed : PeerTable.Keyed ids m₀.peerStates) {s : SyncSnapshot} (hs : s.Same m₀.snapshot)
    (hrestore : m.restore ids s = some m') : m'.snapshot.Same s ↔ m.PeersListed s := by
  rcases restore_spec hkeyed hs (m := m) with ⟨_, hrestore', hchanges, hoffset, _, hin, hout⟩
  obtain rfl := Option.some.inj (hrestore.symm.trans hrestore')
  constructor
  · intro hsame key hkey
    by_contra hnot
    rw [← AList.lookup_isSome, ← hout key hnot, ← mem_snapshot_keys,
      (hsame.peers.map Prod.fst).mem_iff] at hkey
    exact hnot hkey
  · intro hlisted
    refine ⟨hoffset, hchanges, ?_⟩
    have hnodup : s.peers.Nodup := hs.peers.nodup_iff.mpr (snapshot_keys_nodup m₀).of_map
    apply (List.perm_ext_iff_of_nodup (snapshot_keys_nodup m').of_map hnodup).mpr
    intro p
    rw [mem_snapshot_peers]
    constructor
    · rintro ⟨st, hlookup, hlast⟩
      have hkey : p.1 ∈ s.peers.map Prod.fst := by
        by_contra hnot
        have hleft := hout p.1 hnot
        rw [hlookup] at hleft
        exact hnot (hlisted p.1 (AList.lookup_isSome.mp (hleft ▸ rfl)))
      rcases restored_lookup hin hkey with ⟨id, offset, hmem, _, hlookup'⟩
      rw [hlookup, Option.some.injEq] at hlookup'
      have hpair : p = (p.1, offset) := Prod.ext rfl (hlast.symm.trans (by rw [hlookup']; rfl))
      exact hpair ▸ hmem
    · intro hp
      rcases hin p hp with ⟨id, _, hlookup⟩
      exact ⟨_, hlookup, rfl⟩

/-- Two managers that knew no other peers have the same peers after restoring. -/
theorem restored_peers_subset {ids : EndpointIds ι} {m₁ m₂ m₀ m₁' m₂' : PeerSyncManager ι}
    (hkeyed : PeerTable.Keyed ids m₀.peerStates) {s : SyncSnapshot} (hs : s.Same m₀.snapshot)
    (h₁ : m₁.restore ids s = some m₁') (h₂ : m₂.restore ids s = some m₂')
    (hlisted : m₁.PeersListed s) {st : PeerSyncState ι} (hst : st ∈ m₁'.getPeerStates) :
    st ∈ m₂'.getPeerStates := by
  rcases restore_spec hkeyed hs (m := m₁) with ⟨_, h₁', _, _, _, hin₁, hout₁⟩
  rcases restore_spec hkeyed hs (m := m₂) with ⟨_, h₂', _, _, _, hin₂, _⟩
  obtain rfl := Option.some.inj (h₁.symm.trans h₁')
  obtain rfl := Option.some.inj (h₂.symm.trans h₂')
  rcases mem_getPeerStates.mp hst with ⟨key, hlookup⟩
  have hkey : key ∈ s.peers.map Prod.fst := by
    by_contra hnot
    have hleft := hout₁ key hnot
    rw [hlookup] at hleft
    exact hnot (hlisted key (AList.lookup_isSome.mp (hleft ▸ rfl)))
  rcases restored_lookup hin₁ hkey with ⟨id, offset, hmem, hdecode, hlookup₁⟩
  rcases hin₂ _ hmem with ⟨id', hdecode', hlookup₂⟩
  rw [hdecode, Option.some.injEq, Except.ok.injEq] at hdecode'
  rw [hlookup₁, Option.some.injEq] at hlookup
  exact mem_getPeerStates.mpr ⟨key, by rw [hlookup₂, ← hdecode', hlookup]⟩

/-- Two managers restored from the snapshot of a reachable one cannot be told
apart, and give the snapshot back, exactly if every peer that either knew is
listed in it. -/
theorem restore_replaces_iff (ids : EndpointIds ι) (hids : ids.Lawful) (maxChanges : UInt64)
    (m₁ m₂ m₀ : PeerSyncManager ι) (h₀ : m₀.Reachable ids maxChanges) (s : SyncSnapshot)
    (hs : s.Same m₀.snapshot) :
    ∃ m₁' m₂', m₁.restore ids s = some m₁' ∧ m₂.restore ids s = some m₂' ∧
      (Indistinguishable s m₁' m₂' ↔ m₁.PeersListed s ∧ m₂.PeersListed s) := by
  have hkeyed := h₀.keyed hids
  rcases restore_spec hkeyed hs (m := m₁) with ⟨m₁', hrestore₁, _⟩
  rcases restore_spec hkeyed hs (m := m₂) with ⟨m₂', hrestore₂, _⟩
  refine ⟨m₁', m₂', hrestore₁, hrestore₂, ?_⟩
  have hsame₁ := snapshot_same_iff hkeyed hs hrestore₁
  have hsame₂ := snapshot_same_iff hkeyed hs hrestore₂
  constructor
  · exact fun h => ⟨hsame₁.mp h.snapshotLeft, hsame₂.mp h.snapshotRight⟩
  · rintro ⟨hlisted₁, hlisted₂⟩
    have hleft := hsame₁.mpr hlisted₁
    have hright := hsame₂.mpr hlisted₂
    have hoffset : m₁'.offset = m₂'.offset := hleft.offset.trans hright.offset.symm
    have hchanges : m₁'.changes = m₂'.changes := hleft.changes.trans hright.changes.symm
    refine ⟨hoffset, fun offset => ?_, fun st => ⟨?_, ?_⟩, hleft, hright⟩
    · simp only [SyncManager.getChangesSince, hoffset, hchanges]
    · exact restored_peers_subset hkeyed hs hrestore₁ hrestore₂ hlisted₁
    · exact restored_peers_subset hkeyed hs hrestore₂ hrestore₁ hlisted₂

/-- A new manager. -/
def freshManager : PeerSyncManager Unit :=
  .new 100

/-- A manager that knows one peer. -/
def usedManager : PeerSyncManager Unit :=
  freshManager.updatePeerState sampleIds () .syncing

theorem usedManager_reachable : usedManager.Reachable sampleIds 100 :=
  .next .new (.updatePeerState () .syncing)

/-- The criterion for a manager that knows a peer and one that knows none,
restored from the snapshot of the former. -/
theorem restore_replaces_iff_sample :
    ∃ m₁' m₂', usedManager.restore sampleIds usedManager.snapshot = some m₁' ∧
      freshManager.restore sampleIds usedManager.snapshot = some m₂' ∧
      (Indistinguishable usedManager.snapshot m₁' m₂' ↔
        usedManager.PeersListed usedManager.snapshot ∧
          freshManager.PeersListed usedManager.snapshot) :=
  restore_replaces_iff sampleIds sampleIds_lawful 100 usedManager freshManager usedManager
    usedManager_reachable usedManager.snapshot ⟨rfl, rfl, List.Perm.refl _⟩

/-- A manager that knew a peer and a new one, restored from an empty snapshot, can
be told apart: the peer is left over. -/
theorem not_indistinguishable_leftover :
    usedManager.Reachable sampleIds 100 ∧ freshManager.Reachable sampleIds 100 ∧
      ∃ m₁' m₂', usedManager.restore sampleIds freshManager.snapshot = some m₁' ∧
        freshManager.restore sampleIds freshManager.snapshot = some m₂' ∧
        ¬ Indistinguishable freshManager.snapshot m₁' m₂' := by
  refine ⟨usedManager_reachable, .new, _, _, rfl, rfl, fun h => ?_⟩
  have hpeer := h.snapshotLeft.peers.length_eq
  exact absurd hpeer (by decide)

end IrohSync
