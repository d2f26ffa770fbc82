import IrohSync.Sync.ReceiveLoop
import IrohSync.Sync.Restore

/-!
# The state that a session leaves behind

A session marks its peer as syncing when the stream is open and as synchronized
when it comes to its last statement.  It comes there after a stream that is cut or
a message that does not decode as well, and an error on the way leaves the peer
syncing.

Main results:

- Theorems {lit}`receive_clean` and {lit}`pull_clean`: the two loops end without
  an error on a clean stream.
- Theorem {lit}`truthful_exits_iff`: exactly which sessions leave a truthful state.
-/

namespace IrohSync

open FileIo Framing Loop

variable {ι : Type}

/-- The state of a peer, if it is known. -/
def PeerSyncManager.stateOf (ids : EndpointIds ι) (m : PeerSyncManager ι) (id : ι) :
    Option SyncState :=
  (m.peerStates.lookup (peerKey ids id)).map PeerSyncState.state

@[simp]
theorem stateOf_updatePeerState (ids : EndpointIds ι) (m : PeerSyncManager ι) (id : ι)
    (state : SyncState) : (m.updatePeerState ids id state).stateOf ids id = some state := by
  rw [PeerSyncManager.stateOf, updatePeerState_lookup_self, Option.map_some]

/-- A peer whose state claims that a session is under way or was completed. -/
def PeerSyncManager.Engaged (ids : EndpointIds ι) (m : PeerSyncManager ι) (id : ι) : Prop :=
  m.stateOf ids id = some .synchronized ∨ m.stateOf ids id = some .syncing

/-! ## Accepted sessions -/

/-- A stream that ends with a zero length, or on the boundary of a frame, after
frames that all decode. -/
inductive CleanStream (wire : Wire) : Bytes → Prop
  | closed : CleanStream wire []
  | marker (rest : Bytes) : CleanStream wire (be.write 0 ++ rest)
  | message {body rest : Bytes} {msg : SyncMessage} (hpos : 0 < body.length)
      (hle : body.length ≤ maxMessageSize) (hdecode : wire.decode body = .ok msg)
      (hrest : CleanStream wire rest) : CleanStream wire (frame be body ++ rest)

/-- A clean stream whose messages are answered: every response encodes and every
write succeeds, from a given manager and number of answers on. -/
inductive CleanSession (wire : Wire) (write : Nat → Option String) (localOffset : UInt64) :
    SyncManager → Nat → Bytes → Prop
  | closed {m : SyncManager} {k : Nat} : CleanSession wire write localOffset m k []
  | marker {m : SyncManager} {k : Nat} (rest : Bytes) :
      CleanSession wire write localOffset m k (be.write 0 ++ rest)
  | message {m : SyncManager} {k : Nat} {body response rest : Bytes} {msg : SyncMessage}
      (hpos : 0 < body.length) (hle : body.length ≤ maxMessageSize)
      (hdecode : wire.decode body = .ok msg)
      (hencode : wire.encode (m.processMessage msg localOffset).2 = .ok response)
      (hlength : write (2 * k) = none) (hbytes : write (2 * k + 1) = none)
      (hrest : CleanSession wire write localOffset (m.processMessage msg localOffset).1 (k + 1)
        rest) : CleanSession wire write localOffset m k (frame be body ++ rest)

/-- The stream of a clean session is clean. -/
theorem CleanSession.stream {wire : Wire} {write : Nat → Option String} {localOffset : UInt64}
    {m : SyncManager} {k : Nat} {bytes : Bytes}
    (h : CleanSession wire write localOffset m k bytes) : CleanStream wire bytes := by
  induction h with
  | closed => exact .closed
  | marker rest => exact .marker rest
  | message hpos hle hdecode _ _ _ _ ih => exact .message hpos hle hdecode ih

/-- A clean stream that is not empty holds a length. -/
theorem CleanStream.four_le {wire : Wire} {bytes : Bytes} (h : CleanStream wire bytes)
    (hne : bytes ≠ []) : 4 ≤ bytes.length := by
  cases h with
  | closed => exact absurd rfl hne
  | marker rest =>
      rw [List.length_append, be.length_write]
      omega
  | message _ _ _ _ =>
      rw [List.length_append, frame_length]
      omega

/-- The loop ends without an error in a clean session. -/
theorem receive_clean {wire : Wire} {write : Nat → Option String} {localOffset : UInt64}
    {m : SyncManager} {k : Nat} {bytes : Bytes}
    (h : CleanSession wire write localOffset m k bytes) {s : ReceiveState} (hm : s.manager = m)
    (hk : s.answered.length = k) (hbytes : s.rest = bytes) :
    ((receiveBody wire write localOffset).run s).2 = .ok () := by
  induction h generalizing s with
  | closed => rw [receive_short (by rw [hbytes]; exact Nat.succ_pos 3)]
  | marker rest => rw [receive_marker hbytes]
  | message hpos hle hdecode hencode hlength hwritten _ ih =>
      subst hm hk
      have hpass := receivePass_frame hbytes hpos hle hdecode hencode hlength hwritten
      rw [Body.run_next _ _ hpass]
      exact ih rfl (by simp) rfl

/-- The session ends cleanly: the stream is opened, the session is clean and the
stream is finished. -/
structure Net.CleanAccept (net : Net) (wire : Wire) (m : SyncManager) : Prop where
  opened : net.opened = none
  session : CleanSession wire net.write m.offset m 0 net.bytes
  finished : net.finish = none

/-- A session whose loop ends without an error and whose stream is finished returns
without an error and leaves its peer synchronized. -/
theorem handleConnection_done {ids : EndpointIds ι} {wire : Wire} {net : Net}
    {m : PeerSyncManager ι} (peerId : ι) (hopened : net.opened = none)
    (hloop : ((receiveBody wire net.write m.offset).run
      (.start m.toSyncManager net.bytes)).2 = .ok ()) (hfinish : net.finish = none) :
    (m.handleConnection ids wire net peerId).2 = .ok () ∧
      (m.handleConnection ids wire net peerId).1.stateOf ids peerId = some .synchronized := by
  -- the state of a peer is not part of what the loop works on
  have hloop' : ((receiveBody wire net.write (m.updatePeerState ids peerId .syncing).offset).run
      (.start (m.updatePeerState ids peerId .syncing).toSyncManager net.bytes)).2 = .ok () := hloop
  simp only [PeerSyncManager.handleConnection, hopened, hloop', hfinish,
    stateOf_updatePeerState, and_self]

/-- A clean session returns without an error and leaves its peer synchronized. -/
theorem handleConnection_clean {ids : EndpointIds ι} {wire : Wire} {net : Net}
    {m : PeerSyncManager ι} (peerId : ι) (h : net.CleanAccept wire m.toSyncManager) :
    (m.handleConnection ids wire net peerId).2 = .ok () ∧
      (m.handleConnection ids wire net peerId).1.stateOf ids peerId = some .synchronized :=
  handleConnection_done peerId h.opened (receive_clean h.session rfl rfl rfl) h.finished

/-- An accepted session leaves its peer synchronized only after a clean stream, and
on every exit that is not clean neither synchronized nor syncing. -/
structure TruthfulAccept (ids : EndpointIds ι) (wire : Wire) (net : Net) (m : PeerSyncManager ι)
    (peerId : ι) : Prop where
  synchronized : (m.handleConnection ids wire net peerId).1.stateOf ids peerId =
    some .synchronized → net.opened = none ∧ CleanStream wire net.bytes
  otherwise : ¬ net.CleanAccept wire m.toSyncManager →
    ¬ (m.handleConnection ids wire net peerId).1.Engaged ids peerId

/-- A session whose stream was opened leaves its peer synchronized or syncing. -/
theorem engaged_handleConnection {ids : EndpointIds ι} {wire : Wire} {net : Net}
    (m : PeerSyncManager ι) (peerId : ι) (hopened : net.opened = none) :
    (m.handleConnection ids wire net peerId).1.Engaged ids peerId := by
  unfold PeerSyncManager.handleConnection
  simp only [hopened]
  split
  · exact Or.inr (stateOf_updatePeerState ids m peerId .syncing)
  · split
    · exact Or.inr (stateOf_updatePeerState ids m peerId .syncing)
    · exact Or.inl (stateOf_updatePeerState ids _ peerId .synchronized)

/-- Exactly which accepted sessions leave a truthful state: those that end cleanly,
and those whose stream is not opened and whose peer was not engaged before. -/
theorem truthfulAccept_iff (ids : EndpointIds ι) (wire : Wire) (net : Net)
    (m : PeerSyncManager ι) (peerId : ι) :
    TruthfulAccept ids wire net m peerId ↔
      net.CleanAccept wire m.toSyncManager ∨ (net.opened ≠ none ∧ ¬ m.Engaged ids peerId) := by
  by_cases hopened : net.opened = none
  · constructor
    · intro h
      left
      by_contra hclean
      exact h.otherwise hclean (engaged_handleConnection m peerId hopened)
    · rintro (hclean | ⟨hne, _⟩)
      · exact ⟨fun _ => ⟨hopened, hclean.session.stream⟩, fun hnot => absurd hclean hnot⟩
      · exact absurd hopened hne
  · have hnot : ¬ net.CleanAccept wire m.toSyncManager := fun h => hopened h.opened
    -- a stream that is not opened leaves everything as it was
    have hstate : (m.handleConnection ids wire net peerId).1 = m := by
      unfold PeerSyncManager.handleConnection
      split
      · rfl
      · contradiction
    constructor
    · intro h
      exact Or.inr ⟨hopened, hstate ▸ h.otherwise hnot⟩
    · rintro (hclean | ⟨_, hengaged⟩)
      · exact absurd hclean hnot
      · refine ⟨fun hsync => ?_, fun _ => by rwa [hstate]⟩
        rw [hstate] at hsync
        exact absurd (Or.inl hsync) hengaged

/-! ## Sessions of the connecting side -/

/-- A stream of responses that ends with a zero length, an acknowledgment or on the
boundary of a frame, after frames that all decode. -/
inductive CleanResponses (wire : Wire) : Bytes → Prop
  | closed : CleanResponses wire []
  | marker (rest : Bytes) : CleanResponses wire (be.write 0 ++ rest)
  | ack {body : Bytes} {offset : UInt64} (hpos : 0 < body.length)
      (hle : body.length ≤ maxMessageSize) (hdecode : wire.decode body = .ok (.ack offset))
      (rest : Bytes) : CleanResponses wire (frame be body ++ rest)
  | message {body rest : Bytes} {msg : SyncMessage} (hpos : 0 < body.length)
      (hle : body.length ≤ maxMessageSize) (hdecode : wire.decode body = .ok msg)
      (hmsg : ∀ offset, msg ≠ .ack offset) (hrest : CleanResponses wire rest) :
      CleanResponses wire (frame be body ++ rest)

/-- A clean stream of responses that is not empty holds a length. -/
theorem CleanResponses.four_le {wire : Wire} {bytes : Bytes} (h : CleanResponses wire bytes)
    (hne : bytes ≠ []) : 4 ≤ bytes.length := by
  cases h with
  | closed => exact absurd rfl hne
  | marker rest =>
      rw [List.length_append, be.length_write]
      omega
  | ack _ _ _ rest =>
      rw [List.length_append, frame_length]
      omega
  | message _ _ _ _ _ =>
      rw [List.length_append, frame_length]
      omega

/-- A message that decodes and acknowledges nothing is passed over. -/
theorem pullPass_message {wire : Wire} (readError : String) {s : PullState} {body rest : Bytes}
    {msg : SyncMessage} (hread : readFrame be maxMessageSize s.rest = .body body rest)
    (hdecode : wire.decode body = .ok msg) (hmsg : ∀ offset, msg ≠ .ack offset) :
    ∃ manager, pullPass wire readError s = .next ⟨manager, rest⟩ := by
  unfold pullPass
  simp only [hread, hdecode]
  cases msg with
  | request offset limit => exact ⟨_, rfl⟩
  | response batch => exact ⟨_, rfl⟩
  | ack offset => exact absurd rfl (hmsg offset)
  | ping => exact ⟨_, rfl⟩
  | pong => exact ⟨_, rfl⟩

/-- A stream with less than a length left ends the loop. -/
theorem pull_short {wire : Wire} (readError : String) {s : PullState}
    (hshort : s.rest.length < 4) : (pullBody wire readError).run s = (s, .ok ()) := by
  apply Body.run_done
  simp only [pullBody, pullPass, readFrame_short hshort]

/-- The loop ends without an error on a clean stream of responses. -/
theorem pull_clean {wire : Wire} {bytes : Bytes} (h : CleanResponses wire bytes)
    (readError : String) {s : PullState} (hbytes : s.rest = bytes) :
    ((pullBody wire readError).run s).2 = .ok () := by
  induction h generalizing s with
  | closed => rw [pull_short readError (by rw [hbytes]; exact Nat.succ_pos 3)]
  | marker rest =>
      have hread := readFrame_marker (p := be) maxMessageSize rest
      rw [← hbytes] at hread
      have hpass : (pullBody wire readError).pass s = .done ({ s with rest := rest }, .ok ()) := by
        simp only [pullBody, pullPass, hread]
      rw [Body.run_done _ _ hpass]
  | ack hpos hle hdecode rest =>
      have hread := readFrame_message hbytes hpos hle
      have hpass : (pullBody wire readError).pass s = .done ({ s with rest := rest }, .ok ()) := by
        simp only [pullBody, pullPass, hread, hdecode]
      rw [Body.run_done _ _ hpass]
  | message hpos hle hdecode hmsg _ ih =>
      rcases pullPass_message readError (readFrame_message hbytes hpos hle) hdecode hmsg with
        ⟨manager, hpass⟩
      rw [Body.run_next _ _ hpass]
      exact ih rfl

/-- The session ends cleanly: the stream is opened, the request is sent, the stream
of responses is clean and the end is signalled. -/
structure Net.CleanPull (net : Net) (wire : Wire) (m : SyncManager) : Prop where
  opened : net.opened = none
  request : ∃ encoded, wire.encode m.initialRequest = .ok encoded
  sent : net.firstError [0, 1] = none
  responses : CleanResponses wire net.bytes
  signalled : net.firstError [2] = none
  finished : net.finish = none

/-- What a session of the connecting side does to its peer's state: it returns an
error, and leaves the state alone or the peer syncing, or it returns without one
and leaves the peer synchronized. -/
theorem connectAndSync_cases (ids : EndpointIds ι) (wire : Wire) (net : Net)
    (m : PeerSyncManager ι) (peerId : ι) :
    (net.opened ≠ none ∧ (m.connectAndSync ids wire net peerId).1 = m ∧
      (m.connectAndSync ids wire net peerId).2 ≠ .ok ()) ∨
    (net.opened = none ∧
      (m.connectAndSync ids wire net peerId).1.stateOf ids peerId = some .syncing ∧
      (m.connectAndSync ids wire net peerId).2 ≠ .ok ()) ∨
    (net.opened = none ∧ (∃ encoded, wire.encode m.initialRequest = .ok encoded) ∧
      net.firstError [0, 1] = none ∧ net.firstError [2] = none ∧ net.finish = none ∧
      (m.connectAndSync ids wire net peerId).1.stateOf ids peerId = some .synchronized ∧
      (m.connectAndSync ids wire net peerId).2 = .ok ()) := by
  have hsyncing := stateOf_updatePeerState ids m peerId .syncing
  unfold PeerSyncManager.connectAndSync
  split
  · next e hopened => exact Or.inl ⟨by rw [hopened]; exact Option.some_ne_none e, rfl, nofun⟩
  · next hopened =>
      right
      simp only
      split
      · exact Or.inl ⟨hopened, hsyncing, nofun⟩
      · next encoded hencode =>
          split
          · exact Or.inl ⟨hopened, hsyncing, nofun⟩
          · next hsent =>
              split
              · exact Or.inl ⟨hopened, hsyncing, nofun⟩
              · split
                · exact Or.inl ⟨hopened, hsyncing, nofun⟩
                · next hsignalled =>
                    split
                    · exact Or.inl ⟨hopened, hsyncing, nofun⟩
                    · next hfinished =>
                        exact Or.inr ⟨hopened, ⟨encoded, hencode⟩, hsent, hsignalled, hfinished,
                          stateOf_updatePeerState ids _ peerId .synchronized, rfl⟩

/-- A session whose request is sent, whose loop ends without an error and whose end
is signalled returns without an error and leaves its peer synchronized. -/
theorem connectAndSync_done {ids : EndpointIds ι} {wire : Wire} {net : Net}
    {m : PeerSyncManager ι} {encoded : Bytes} (peerId : ι) (hopened : net.opened = none)
    (hencode : wire.encode m.initialRequest = .ok encoded) (hsent : net.firstError [0, 1] = none)
    (hloop : ((pullBody wire net.readError).run ⟨m.toSyncManager, net.bytes⟩).2 = .ok ())
    (hsignalled : net.firstError [2] = none) (hfinish : net.finish = none) :
    (m.connectAndSync ids wire net peerId).2 = .ok () ∧
      (m.connectAndSync ids wire net peerId).1.stateOf ids peerId = some .synchronized := by
  have hencode' : wire.encode (m.updatePeerState ids peerId .syncing).initialRequest =
      .ok encoded := hencode
  have hloop' : ((pullBody wire net.readError).run
      ⟨(m.updatePeerState ids peerId .syncing).toSyncManager, net.bytes⟩).2 = .ok () := hloop
  simp only [PeerSyncManager.connectAndSync, hopened, hencode', hsent, hloop', hsignalled,
    hfinish, stateOf_updatePeerState, and_self]

/-- A clean session of the connecting side returns without an error. -/
theorem connectAndSync_clean {ids : EndpointIds ι} {wire : Wire} {net : Net}
    {m : PeerSyncManager ι} (peerId : ι) (h : net.CleanPull wire m.toSyncManager) :
    (m.connectAndSync ids wire net peerId).2 = .ok () := by
  rcases h.request with ⟨encoded, hencode⟩
  exact (connectAndSync_done peerId h.opened hencode h.sent
    (pull_clean h.responses net.readError rfl) h.signalled h.finished).1

/-- A session of the connecting side leaves its peer synchronized exactly when it
returns without an error after a clean stream, and not syncing when it returns one. -/
structure TruthfulPull (ids : EndpointIds ι) (wire : Wire) (net : Net) (m : PeerSyncManager ι)
    (peerId : ι) : Prop where
  synchronized : (m.connectAndSync ids wire net peerId).1.stateOf ids peerId =
    some .synchronized ↔
      (m.connectAndSync ids wire net peerId).2 = .ok () ∧ CleanResponses wire net.bytes
  failed : (m.connectAndSync ids wire net peerId).2 ≠ .ok () →
    (m.connectAndSync ids wire net peerId).1.stateOf ids peerId ≠ some .syncing

/-- Exactly which sessions of the connecting side leave a truthful state. -/
theorem truthfulPull_iff (ids : EndpointIds ι) (wire : Wire) (net : Net)
    (m : PeerSyncManager ι) (peerId : ι) :
    TruthfulPull ids wire net m peerId ↔
      net.CleanPull wire m.toSyncManager ∨ (net.opened ≠ none ∧ ¬ m.Engaged ids peerId) := by
  have hclean : net.CleanPull wire m.toSyncManager →
      (m.connectAndSync ids wire net peerId).2 = .ok () := connectAndSync_clean peerId
  rcases connectAndSync_cases ids wire net m peerId with ⟨hopened, hstate, herr⟩ |
    ⟨hopened, hstate, herr⟩ | ⟨hopened, hrequest, hsent, hsignalled, hfinished, hstate, hok⟩
  · -- the stream is not opened
    constructor
    · intro h
      have hsync := h.synchronized
      have hsyncing := h.failed herr
      rw [hstate] at hsync hsyncing
      refine Or.inr ⟨hopened, ?_⟩
      rintro (heq | heq)
      · exact herr (hsync.mp heq).1
      · exact hsyncing heq
    · rintro (h | ⟨_, hengaged⟩)
      · exact absurd h.opened hopened
      · rw [PeerSyncManager.Engaged, not_or, ← hstate] at hengaged
        exact ⟨⟨fun h => absurd h hengaged.1, fun h => absurd h.1 herr⟩, fun _ => hengaged.2⟩
  · -- an error leaves the peer syncing
    constructor
    · intro h
      exact absurd hstate (h.failed herr)
    · rintro (h | ⟨hne, _⟩)
      · exact absurd (hclean h) herr
      · exact absurd hopened hne
  · constructor
    · intro h
      exact Or.inl ⟨hopened, hrequest, hsent, (h.synchronized.mp hstate).2, hsignalled, hfinished⟩
    · rintro (h | ⟨hne, _⟩)
      · exact ⟨⟨fun _ => ⟨hok, h.responses⟩, fun _ => hstate⟩, fun herr => absurd hok herr⟩
      · exact absurd hopened hne

/-! ## Both sides -/

/-- Exactly which sessions leave a truthful state: those that end cleanly, and
those whose stream is not opened and whose peer was not engaged before. -/
theorem truthful_exits_iff (ids : EndpointIds ι) (wire : Wire) (net : Net)
    (m : PeerSyncManager ι) (peerId : ι) :
    (TruthfulAccept ids wire net m peerId ↔
      net.CleanAccept wire m.toSyncManager ∨ (net.opened ≠ none ∧ ¬ m.Engaged ids peerId)) ∧
    (TruthfulPull ids wire net m peerId ↔
      net.CleanPull wire m.toSyncManager ∨ (net.opened ≠ none ∧ ¬ m.Engaged ids peerId)) :=
  ⟨truthfulAccept_iff ids wire net m peerId, truthfulPull_iff ids wire net m peerId⟩

/-- A network that opens the stream, carries one byte and lets every write succeed. -/
def cutNet : Net where
  opened := none
  bytes := [0]
  readError := "connection lost"
  write := fun _ => none
  finish := none

/-- A stream that is cut inside a length leaves the peer synchronized on both sides. -/
theorem not_truthful_cut : ¬ TruthfulAccept sampleIds sampleWire cutNet freshManager () ∧
    ¬ TruthfulPull sampleIds sampleWire cutNet freshManager () := by
  have hcut : cutNet.bytes ≠ [] ∧ cutNet.bytes.length < 4 := by decide
  constructor
  · intro h
    have hstate : (freshManager.handleConnection sampleIds sampleWire cutNet ()).1.stateOf
        sampleIds () = some .synchronized :=
      (handleConnection_done () rfl (by rw [receive_short hcut.2]) rfl).2
    have hlong := (h.synchronized hstate).2.four_le hcut.1
    omega
  · intro h
    have hstate : (freshManager.connectAndSync sampleIds sampleWire cutNet ()).1.stateOf
        sampleIds () = some .synchronized :=
      (connectAndSync_done () rfl rfl rfl (by rw [pull_short _ hcut.2]) rfl rfl).2
    have hlong := (h.synchronized.mp hstate).2.four_le hcut.1
    omega

end IrohSync
