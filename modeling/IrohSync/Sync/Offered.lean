import IrohSync.Lib.Machine
import IrohSync.Sync.SessionExits

/-!
# What a synchronized peer has been offered

Any number of sessions with any peers, local changes and ticks of the periodic
loop, in any order.  The calls of the manager are the atomic steps.  Beside the
state of the source a list keeps which changes were sent to which peer.

A peer that is synchronized is skipped by every later tick.  Nothing that records
a change takes a peer out of that state, and a session that ends is not asked what
it offered.

Main results:

- Theorem {lit}`mem_syncWithPeers`: whom a tick dials.
- Theorem {lit}`synchronized_offered_iff`: exactly in which runs a synchronized peer
  has always been offered everything.
-/

namespace IrohSync

open BoundedLog Machine

variable {ι : Type}

/-! ## Sessions, changes and ticks -/

/-- The two functions that run a session. -/
inductive Side where
  | accepting
  | connecting
deriving DecidableEq, Repr

/-- A session that is under way. -/
structure PeerSession (ι : Type) where
  peerId : ι
  side : Side
  localOffset : UInt64
deriving DecidableEq, Repr

/-- The manager, the sessions under way, and which changes were sent to which peer. -/
structure Replication (ι : Type) where
  manager : PeerSyncManager ι
  sessions : List (PeerSession ι)
  offered : List (ι × Change)

/-- The state before the first call. -/
def Replication.new (maxChanges : UInt64) : Replication ι where
  manager := .new maxChanges
  sessions := []
  offered := []

/-- A local change is recorded, a session begins, gets a message, comes to its last
statement or fails, or the timer ticks.  A batch that is recorded while other calls
go on is the same as several smaller ones. -/
inductive ReplicationEvent (ι : Type) where
  | record (change : Change)
  | start (peerId : ι) (side : Side)
  | message (i : Nat) (msg : SyncMessage) (sent : Bool)
  | finish (i : Nat)
  | fail (i : Nat)
  | tick

/-- A session begins. -/
def Replication.startSession (ids : EndpointIds ι) (s : Replication ι) (peerId : ι)
    (side : Side) : Replication ι :=
  { s with
    manager := s.manager.updatePeerState ids peerId .syncing
    sessions := s.sessions ++ [⟨peerId, side, s.manager.offset⟩] }

/-- An accepted session answers a message; if the answer cannot be sent the session
is over. -/
def Replication.answerPeer (s : Replication ι) (i : Nat) (session : PeerSession ι)
    (msg : SyncMessage) (sent : Bool) : Replication ι :=
  let processed := s.manager.processMessage msg session.localOffset
  let manager := { s.manager with toSyncManager := processed.1 }
  if sent then
    { s with
      manager := manager
      offered := s.offered ++ processed.2.changes.map fun change => (session.peerId, change) }
  else { s with manager := manager, sessions := s.sessions.eraseIdx i }

/-- A session of the connecting side applies what it is sent. -/
def Replication.takeResponse (s : Replication ι) (msg : SyncMessage) : Replication ι :=
  { s with manager := { s.manager with
      toSyncManager := (s.manager.applyChanges msg.changes).1 } }

/-- A session handles a message of its peer. -/
def Replication.handleMessage (s : Replication ι) (i : Nat) (msg : SyncMessage) (sent : Bool) :
    Replication ι :=
  match s.sessions[i]? with
  | none => s
  | some session =>
      match session.side with
      | .accepting => s.answerPeer i session msg sent
      | .connecting => s.takeResponse msg

/-- A session comes to its last statement. -/
def Replication.finishSession (ids : EndpointIds ι) (s : Replication ι) (i : Nat) :
    Replication ι :=
  match s.sessions[i]? with
  | none => s
  | some session =>
      { s with
        manager := s.manager.updatePeerState ids session.peerId .synchronized
        sessions := s.sessions.eraseIdx i }

/-- Sync with all connected peers: the peers that are dialed.  The connections that
are made run no session. -/
def PeerSyncManager.syncWithPeers (m : PeerSyncManager ι) : List ι :=
  (m.getPeerStates.filter fun peer => decide (peer.state ≠ .synchronized)).map
    PeerSyncState.peerId

/-- The state after an event. -/
def Replication.next (ids : EndpointIds ι) (s : Replication ι) :
    ReplicationEvent ι → Replication ι
  | .record change =>
      { s with manager := { s.manager with
          toSyncManager := (s.manager.recordChange change).1 } }
  | .start peerId side => s.startSession ids peerId side
  | .message i msg sent => s.handleMessage i msg sent
  | .finish i => s.finishSession ids i
  | .fail i => { s with sessions := s.sessions.eraseIdx i }
  | .tick => s

/-- All interleavings; the answer to an event is whom it dials. -/
def replication (ids : EndpointIds ι) : Machine (Replication ι) (ReplicationEvent ι) (List ι) where
  next := Replication.next ids
  answer s
    | .tick => s.manager.syncWithPeers
    | _ => []

/-- The changes that an event records. -/
def Replication.recorded (s : Replication ι) : ReplicationEvent ι → List Change
  | .record change => [change]
  | .message i msg _ =>
      match s.sessions[i]? with
      | none => []
      | some session => if session.side = .accepting then msg.changes else []
  | _ => []

/-! ## What is expected of them -/

/-- A peer has been sent every change of the log. -/
def Replication.Covers (s : Replication ι) (peerId : ι) : Prop :=
  ∀ change ∈ s.manager.changes, (peerId, change) ∈ s.offered

/-- Every peer that is synchronized has been offered every retained change. -/
def Replication.NothingWithheld (ids : EndpointIds ι) (s : Replication ι) : Prop :=
  ∀ peerId, s.manager.stateOf ids peerId = some .synchronized → s.Covers peerId

/-- A tick dials every peer that is known. -/
def Replication.AllEligible (ids : EndpointIds ι) (s : Replication ι) : Prop :=
  ∀ peerId, s.manager.stateOf ids peerId ≠ none → peerId ∈ s.manager.syncWithPeers

/-- A step withholds nothing, and if it records a change every peer is eligible
again. -/
structure Offers (ids : EndpointIds ι) (s : Replication ι) (e : ReplicationEvent ι) : Prop where
  nothingWithheld : (s.next ids e).NothingWithheld ids
  eligible : s.recorded e ≠ [] → (s.next ids e).AllEligible ids

/-- Changes are recorded while no peer is synchronized, and a session comes to its
last statement when everything retained was sent to its peer. -/
def Attentive (ids : EndpointIds ι) (s : Replication ι) (e : ReplicationEvent ι) : Prop :=
  (s.recorded e ≠ [] → ∀ peerId, s.manager.stateOf ids peerId ≠ some .synchronized) ∧
    ∀ i session, e = .finish i → s.sessions[i]? = some session → s.Covers session.peerId

/-! ## Peers and their keys -/

section

variable {ids : EndpointIds ι}

/-- Distinct peers have distinct keys. -/
theorem peerKey_injective (hids : ids.Lawful) : Function.Injective (peerKey ids) := by
  intro id id' hkey
  have hbytes := congrArg ids.fromBytes (base64UrlEncode_injective hkey)
  rw [hids.fromBytes_asBytes, hids.fromBytes_asBytes] at hbytes
  exact Except.ok.inj hbytes

theorem stateOf_updatePeerState_ne (hids : ids.Lawful) (m : PeerSyncManager ι) {id peerId : ι}
    (state : SyncState) (hne : peerId ≠ id) :
    (m.updatePeerState ids id state).stateOf ids peerId = m.stateOf ids peerId := by
  rw [PeerSyncManager.stateOf,
    updatePeerState_lookup_ne m state fun hkey => hne (peerKey_injective hids hkey)]
  rfl

/-- Every entry is stored under the key of its own peer. -/
def PeerTable.Named (ids : EndpointIds ι) (states : PeerTable ι) : Prop :=
  ∀ key st, states.lookup key = some st → key = peerKey ids st.peerId

theorem PeerTable.Named.empty : PeerTable.Named ids (∅ : PeerTable ι) := by
  intro key st hlookup
  simp at hlookup

theorem PeerTable.Named.updatePeerState {m : PeerSyncManager ι}
    (h : PeerTable.Named ids m.peerStates) (id : ι) (state : SyncState) :
    PeerTable.Named ids (m.updatePeerState ids id state).peerStates := by
  intro key st hlookup
  by_cases hkey : key = peerKey ids id
  · subst hkey
    rw [updatePeerState_lookup_self, Option.some.injEq] at hlookup
    subst hlookup
    cases hold : m.peerStates.lookup (peerKey ids id) with
    | none => rfl
    | some st => exact h _ st hold
  · rw [updatePeerState_lookup_ne m state hkey] at hlookup
    exact h key st hlookup

/-- The entry of a peer is its own. -/
theorem lookup_peerKey (hids : ids.Lawful) {states : PeerTable ι}
    (h : PeerTable.Named ids states) {peerId : ι} {st : PeerSyncState ι}
    (hlookup : states.lookup (peerKey ids peerId) = some st) : st.peerId = peerId :=
  (peerKey_injective hids (h _ st hlookup)).symm

/-- A tick dials the peers that are known and not synchronized. -/
theorem mem_syncWithPeers (hids : ids.Lawful) {m : PeerSyncManager ι}
    (h : PeerTable.Named ids m.peerStates) {peerId : ι} : peerId ∈ m.syncWithPeers ↔
      ∃ state, m.stateOf ids peerId = some state ∧ state ≠ .synchronized := by
  unfold PeerSyncManager.syncWithPeers PeerSyncManager.stateOf
  simp only [List.mem_map, List.mem_filter, mem_getPeerStates, decide_eq_true_eq]
  constructor
  · rintro ⟨st, ⟨⟨key, hlookup⟩, hstate⟩, rfl⟩
    rw [h key st hlookup] at hlookup
    exact ⟨st.state, by rw [hlookup, Option.map_some], hstate⟩
  · rintro ⟨state, hlookup, hstate⟩
    rcases Option.map_eq_some_iff.mp hlookup with ⟨st, hst, rfl⟩
    exact ⟨st, ⟨⟨_, hst⟩, hstate⟩, lookup_peerKey hids h hst⟩

/-- All peers are eligible if and only if none is synchronized. -/
theorem allEligible_iff (hids : ids.Lawful) {s : Replication ι}
    (h : PeerTable.Named ids s.manager.peerStates) :
    s.AllEligible ids ↔ ∀ peerId, s.manager.stateOf ids peerId ≠ some .synchronized := by
  constructor
  · intro hall peerId hsync
    have hknown : s.manager.stateOf ids peerId ≠ none := by
      rw [hsync]
      exact Option.some_ne_none _
    rcases (mem_syncWithPeers hids h).mp (hall peerId hknown) with ⟨state, hstate, hne⟩
    rw [hsync] at hstate
    exact hne (Option.some.inj hstate).symm
  · intro hnone peerId hknown
    rcases Option.ne_none_iff_exists'.mp hknown with ⟨state, hstate⟩
    exact (mem_syncWithPeers hids h).mpr ⟨state, hstate, fun heq => hnone peerId (heq ▸ hstate)⟩

/-! ## Single events -/

/-- What a message does: nothing without a session, and otherwise what its side does. -/
theorem handleMessage_cases (s : Replication ι) (i : Nat) (msg : SyncMessage) (sent : Bool) :
    (s.handleMessage i msg sent = s ∧ s.recorded (.message i msg sent) = []) ∨
    (∃ session, s.handleMessage i msg sent = s.answerPeer i session msg sent ∧
      s.recorded (.message i msg sent) = msg.changes) ∨
    (s.handleMessage i msg sent = s.takeResponse msg ∧
      s.recorded (.message i msg sent) = []) := by
  unfold Replication.handleMessage Replication.recorded
  cases hsession : s.sessions[i]? with
  | none => exact Or.inl ⟨rfl, by simp only [hsession]⟩
  | some session =>
      right
      cases hside : session.side with
      | accepting => exact Or.inl ⟨session, by simp only [hside], by simp [hsession, hside]⟩
      | connecting => exact Or.inr ⟨by simp only [hside], by simp [hsession, hside]⟩

/-- Processing a message records the changes it carries. -/
theorem processMessage_changes (m : SyncManager) (msg : SyncMessage) (localOffset : UInt64) :
    (m.processMessage msg localOffset).1 = m.recordAll msg.changes := by
  cases msg <;> rfl

/-- The log after an event. -/
theorem next_changes (ids : EndpointIds ι) (s : Replication ι) (e : ReplicationEvent ι) :
    (s.next ids e).manager.changes = (s.manager.recordAll (s.recorded e)).changes := by
  cases e with
  | record change => rfl
  | start peerId side => rfl
  | message i msg sent =>
      rw [Replication.next]
      rcases handleMessage_cases s i msg sent with ⟨hnext, hnone⟩ | ⟨session, hnext, hmsg⟩ |
        ⟨hnext, hnone⟩
      · rw [hnext, hnone, recordAll_nil]
      · rw [hnext, hmsg, ← processMessage_changes _ _ session.localOffset]
        cases sent <;> rfl
      · rw [hnext, hnone]
        rfl
  | finish i =>
      rw [Replication.next, Replication.finishSession]
      cases s.sessions[i]? <;> rfl
  | fail i => rfl
  | tick => rfl

/-- What was offered stays offered. -/
theorem next_offered (ids : EndpointIds ι) (s : Replication ι) (e : ReplicationEvent ι) :
    s.offered ⊆ (s.next ids e).offered := by
  cases e with
  | record change => exact List.Subset.refl _
  | start peerId side => exact List.Subset.refl _
  | message i msg sent =>
      rw [Replication.next]
      rcases handleMessage_cases s i msg sent with ⟨hnext, _⟩ | ⟨session, hnext, _⟩ | ⟨hnext, _⟩
      · rw [hnext]
        exact List.Subset.refl _
      · rw [hnext]
        cases sent with
        | true => exact List.subset_append_left _ _
        | false => exact List.Subset.refl _
      · rw [hnext]
        exact List.Subset.refl _
  | finish i =>
      rw [Replication.next, Replication.finishSession]
      cases s.sessions[i]? <;> exact List.Subset.refl _
  | fail i => exact List.Subset.refl _
  | tick => exact List.Subset.refl _

/-- The table of peers changes only where a session begins or comes to its last
statement. -/
theorem next_peerStates (ids : EndpointIds ι) (s : Replication ι) (e : ReplicationEvent ι) :
    (∃ peerId side, e = .start peerId side) ∨
    (∃ i session, e = .finish i ∧ s.sessions[i]? = some session) ∨
    (s.next ids e).manager.peerStates = s.manager.peerStates := by
  cases e with
  | record change => exact Or.inr (Or.inr rfl)
  | start peerId side => exact Or.inl ⟨peerId, side, rfl⟩
  | message i msg sent =>
      right; right
      rw [Replication.next]
      rcases handleMessage_cases s i msg sent with ⟨hnext, _⟩ | ⟨session, hnext, _⟩ | ⟨hnext, _⟩
      · rw [hnext]
      · rw [hnext]
        cases sent <;> rfl
      · rw [hnext]
        rfl
  | finish i =>
      right
      cases hsession : s.sessions[i]? with
      | none =>
          right
          rw [Replication.next, Replication.finishSession, hsession]
      | some session => exact Or.inl ⟨i, session, rfl, hsession⟩
  | fail i => exact Or.inr (Or.inr rfl)
  | tick => exact Or.inr (Or.inr rfl)

theorem next_finish {s : Replication ι} {i : Nat} {session : PeerSession ι}
    (hsession : s.sessions[i]? = some session) :
    (s.next ids (.finish i)).manager =
      s.manager.updatePeerState ids session.peerId .synchronized := by
  rw [Replication.next, Replication.finishSession, hsession]

/-- The state of a peer whose session comes to its last statement. -/
theorem stateOf_finish (hids : ids.Lawful) {s : Replication ι} {i : Nat}
    {session : PeerSession ι} (hsession : s.sessions[i]? = some session) {peerId : ι}
    (hsync : (s.next ids (.finish i)).manager.stateOf ids peerId = some .synchronized) :
    peerId = session.peerId ∨ s.manager.stateOf ids peerId = some .synchronized := by
  by_cases heq : peerId = session.peerId
  · exact Or.inl heq
  · rw [next_finish hsession, stateOf_updatePeerState_ne hids _ _ heq] at hsync
    exact Or.inr hsync

/-! ## Steps and runs -/

/-- A peer to which everything was sent still has everything after an event that
records nothing. -/
theorem Replication.Covers.next {s : Replication ι} {peerId : ι} (h : s.Covers peerId)
    {e : ReplicationEvent ι} (hnone : s.recorded e = []) : (s.next ids e).Covers peerId := by
  intro change hchange
  rw [next_changes, hnone, recordAll_nil] at hchange
  exact next_offered ids s e (h change hchange)

/-- What every event keeps: the table is well formed and nothing is withheld. -/
structure Replication.Sound (ids : EndpointIds ι) (s : Replication ι) : Prop where
  named : PeerTable.Named ids s.manager.peerStates
  nothingWithheld : s.NothingWithheld ids

theorem Replication.sound_new (maxChanges : UInt64) :
    (Replication.new maxChanges).Sound ids where
  named := PeerTable.Named.empty
  nothingWithheld := by
    intro peerId _ change hchange
    exact absurd hchange List.not_mem_nil

/-- The table stays well formed. -/
theorem named_next {s : Replication ι} (h : PeerTable.Named ids s.manager.peerStates)
    (e : ReplicationEvent ι) : PeerTable.Named ids (s.next ids e).manager.peerStates := by
  rcases next_peerStates ids s e with ⟨peerId, side, rfl⟩ | ⟨i, session, rfl, hsession⟩ | hsame
  · exact h.updatePeerState peerId .syncing
  · rw [next_finish hsession]
    exact h.updatePeerState session.peerId .synchronized
  · rw [hsame]
    exact h

/-- An event that records a change begins and ends no session. -/
theorem next_peerStates_recorded {s : Replication ι} {e : ReplicationEvent ι}
    (hrecorded : s.recorded e ≠ []) :
    (s.next ids e).manager.peerStates = s.manager.peerStates := by
  rcases next_peerStates ids s e with ⟨peerId, side, rfl⟩ | ⟨i, session, rfl, _⟩ | hsame
  · exact absurd rfl hrecorded
  · exact absurd rfl hrecorded
  · exact hsame

/-- An attentive step withholds nothing. -/
theorem Attentive.nothingWithheld (hids : ids.Lawful) {s : Replication ι}
    {e : ReplicationEvent ι} (hs : s.Sound ids) (h : Attentive ids s e) :
    (s.next ids e).NothingWithheld ids := by
  intro peerId hsync
  by_cases hnone : s.recorded e = []
  · rcases next_peerStates ids s e with ⟨started, side, rfl⟩ | ⟨i, session, rfl, hsession⟩ | hsame
    · by_cases heq : peerId = started
      · -- the peer is syncing now
        subst heq
        have hsyncing := stateOf_updatePeerState ids s.manager peerId .syncing
        rw [Replication.next, Replication.startSession, hsyncing] at hsync
        contradiction
      · rw [Replication.next, Replication.startSession,
          stateOf_updatePeerState_ne hids _ _ heq] at hsync
        exact (hs.nothingWithheld peerId hsync).next hnone
    · rcases stateOf_finish hids hsession hsync with rfl | hbefore
      · exact (h.2 i session rfl hsession).next hnone
      · exact (hs.nothingWithheld peerId hbefore).next hnone
    · rw [PeerSyncManager.stateOf, hsame] at hsync
      exact (hs.nothingWithheld peerId hsync).next hnone
  · rw [PeerSyncManager.stateOf, next_peerStates_recorded hnone] at hsync
    exact absurd hsync (h.1 hnone peerId)

/-- One step from a sound state: it is as expected exactly if it is attentive. -/
theorem offers_iff (hids : ids.Lawful) {s : Replication ι} {e : ReplicationEvent ι}
    (hs : s.Sound ids) : Offers ids s e ↔ Attentive ids s e := by
  have heligible := allEligible_iff hids (named_next hs.named e)
  constructor
  · intro h
    refine ⟨fun hrecorded peerId => ?_, ?_⟩
    · have hnone := heligible.mp (h.eligible hrecorded) peerId
      rwa [PeerSyncManager.stateOf, next_peerStates_recorded hrecorded] at hnone
    · rintro i session rfl hsession change hchange
      -- the log and what was offered are as before the last statement
      have hcovers := h.nothingWithheld session.peerId (by
        rw [next_finish hsession]
        exact stateOf_updatePeerState ids s.manager session.peerId .synchronized)
      have hsame : (s.next ids (.finish i)).offered = s.offered := by
        rw [Replication.next, Replication.finishSession, hsession]
      rw [Replication.Covers, next_finish hsession, hsame] at hcovers
      exact hcovers change hchange
  · intro h
    refine ⟨h.nothingWithheld hids hs, fun hrecorded => heligible.mpr fun peerId => ?_⟩
    rw [PeerSyncManager.stateOf, next_peerStates_recorded hrecorded]
    exact h.1 hrecorded peerId

/-- A step as expected leaves a sound state. -/
theorem Replication.Sound.next {s : Replication ι} {e : ReplicationEvent ι} (hs : s.Sound ids)
    (h : Offers ids s e) : (s.next ids e).Sound ids where
  named := named_next hs.named e
  nothingWithheld := h.nothingWithheld

end

/-- In every run of sessions, local changes and ticks: a synchronized peer has always
been offered every retained change, and recording makes all peers eligible again,
exactly if changes are recorded only while no peer is synchronized and sessions come
to their last statement only when everything retained was sent to their peer. -/
theorem synchronized_offered_iff (ids : EndpointIds ι) (hids : ids.Lawful)
    (maxChanges : UInt64) (events : List (ReplicationEvent ι)) :
    (replication ids).Along (Offers ids) (.new maxChanges) events ↔
      (replication ids).Along (Attentive ids) (.new maxChanges) events := by
  have hnew : (Replication.new maxChanges : Replication ι).Sound ids :=
    Replication.sound_new maxChanges
  exact along_iff (I := Replication.Sound ids) (fun _ _ hs h => hs.next h)
    (fun _ _ hs => offers_iff hids hs) hnew events

/-- A session with a peer that asks for everything. -/
def sampleSync : List (ReplicationEvent Unit) :=
  [.record sampleChange, .start () .accepting, .message 0 (.request 0 (some 1000)) true,
    .finish 0]

/-- The criterion for one session followed by a change. -/
theorem synchronized_offered_iff_sample :
    (replication sampleIds).Along (Offers sampleIds) (.new 100)
        (sampleSync ++ [.record otherChange]) ↔
      (replication sampleIds).Along (Attentive sampleIds) (.new 100)
        (sampleSync ++ [.record otherChange]) :=
  synchronized_offered_iff sampleIds sampleIds_lawful 100 _

/-- A change that is recorded after a session is not offered to its peer, and the next
tick does not dial it. -/
theorem not_offered_after_session :
    ¬ (replication sampleIds).Along (Offers sampleIds) (.new 100)
      (sampleSync ++ [.record otherChange]) := by
  intro h
  have hlast := h.2.2.2.2.1.nothingWithheld ()
  have hsync : ((replication sampleIds).run (.new 100)
      (sampleSync ++ [.record otherChange])).manager.stateOf sampleIds () =
        some .synchronized := by
    decide
  have hoffered := hlast hsync otherChange (by decide)
  exact absurd hoffered (by decide)

end IrohSync
