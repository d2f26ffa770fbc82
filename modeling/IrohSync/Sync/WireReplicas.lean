import IrohSync.Sync.Served

/-!
# Replicas over bytes

The accepting sides of a replicated log, and the clients between them, as they talk over
connections: what is under way between a peer and the one that it follows is a frame of bytes,
which an accepting side reads, checks for its length and decodes.  Frames that do not decode, or
are too large, end the exchange.

Main results:

- Theorem {lit}`Carries.next`: what a step does to the bytes under way and to the messages.
- Theorem {lit}`wire_refines_replicas`: as long as no response is too large for a frame, the
  peers do over bytes what they do with messages.
-/

namespace IrohSync

open BoundedLog FileIo Followers Framing Json Machine

variable {ι : Type} [DecidableEq ι]

/-! ## Runs -/

/-- The bytes under way between a peer and the one that it follows. -/
inductive WireLine where
  | idle
  | request (bytes : Bytes)
  | answer (bytes : Bytes)

/-- The managers of all peers, and for each peer the bytes under way. -/
structure WireReplicas (ι : Type) where
  peers : ι → SyncManager
  line : ι → WireLine

/-- New peers, with nothing under way. -/
def WireReplicas.new (maxChanges : ι → UInt64) : WireReplicas ι where
  peers := fun peer => SyncManager.new (maxChanges peer)
  line := fun _ => .idle

/-- The frame of a message, unless it cannot be encoded. -/
def framed (msg : SyncMessage) : Option Bytes :=
  match encodeMessage msg with
  | .ok body => some (frame be body)
  | .error _ => none

/-- The message in front of the bytes, if its frame is complete and not too large and what is
in it decodes. -/
def received (readers : Readers) (bytes : Bytes) : Option SyncMessage :=
  match readFrame be maxMessageSize bytes with
  | .body body _ => (decodeMessage readers body).toOption
  | _ => none

/-- The peers after an event. -/
def WireReplicas.next (readers : Readers) (upstream : ι → Option ι) (w : WireReplicas ι) :
    ReplicaEvent ι → WireReplicas ι
  | .record peer change =>
      { w with peers := Function.update w.peers peer ((w.peers peer).recordChange change).1 }
  | .ask peer limit =>
      match w.line peer with
      | .idle =>
          let line :=
            match framed (.request (w.peers peer).offset limit) with
            | some bytes => .request bytes
            | none => .idle
          { w with line := Function.update w.line peer line }
      | _ => w
  | .serve peer localOffset =>
      match w.line peer, upstream peer with
      | .request bytes, some server =>
          match received readers bytes with
          | none => { w with line := Function.update w.line peer .idle }
          | some msg =>
              let processed := (w.peers server).processMessage msg localOffset
              let line :=
                match framed processed.2 with
                | some bytes => .answer bytes
                | none => .idle
              { peers := Function.update w.peers server processed.1
                line := Function.update w.line peer line }
      | _, _ => w
  | .take peer localOffset =>
      match w.line peer with
      | .answer bytes =>
          match received readers bytes with
          | none => { w with line := Function.update w.line peer .idle }
          | some msg =>
              { peers := Function.update w.peers peer
                  ((w.peers peer).processMessage msg localOffset).1
                line := Function.update w.line peer .idle }
      | _ => w
  | .lose peer => { w with line := Function.update w.line peer .idle }

/-- The changes that an event brings to a peer. -/
def WireReplicas.brought (readers : Readers) (w : WireReplicas ι) :
    ReplicaEvent ι → List (ι × Change)
  | .record peer change => [(peer, change)]
  | .take peer _ =>
      match w.line peer with
      | .answer bytes =>
          match received readers bytes with
          | some msg => msg.changes.map fun change => (peer, change)
          | none => []
      | _ => []
  | .ask _ _ => []
  | .serve _ _ => []
  | .lose _ => []

/-- Peers that follow each other over connections. -/
def wireReplicas (readers : Readers) (upstream : ι → Option ι) :
    Machine (WireReplicas ι) (ReplicaEvent ι) (List (ι × Change)) where
  next := WireReplicas.next readers upstream
  answer := WireReplicas.brought readers

/-- The changes that one peer recorded or was brought during a run over connections. -/
def wireHistory (readers : Readers) (upstream : ι → Option ι) (w : WireReplicas ι)
    (events : List (ReplicaEvent ι)) (peer : ι) : List Change :=
  ((wireReplicas readers upstream).answers w events).flatMap (broughtTo peer)

/-- What is recorded has a metadata map with distinct keys, and no response is too large. -/
def FitsFrame (upstream : ι → Option ι) (r : Replicas ι) : ReplicaEvent ι → Prop
  | .record _ change => change.MapWellFormed
  | .serve peer localOffset => ∀ server msg, upstream peer = some server →
      r.line peer = .request msg →
        ((r.peers server).processMessage msg localOffset).2.toJson.bytes.length ≤ maxMessageSize
  | _ => True

/-! ## What is under way -/

/-- The bytes under way are those of the message under way. -/
inductive CarriesLine (readers : Readers) : WireLine → Line → Prop
  | idle : CarriesLine readers .idle .idle
  | request {bytes msg} (h : received readers bytes = some msg) :
      CarriesLine readers (.request bytes) (.request msg)
  | answer {bytes msg} (h : received readers bytes = some msg) :
      CarriesLine readers (.answer bytes) (.answer msg)

/-- The peers have the same logs, of changes with well-formed maps, and what is under way
between them as bytes is what is under way as messages. -/
structure Carries (readers : Readers) (w : WireReplicas ι) (r : Replicas ι) : Prop where
  peers : w.peers = r.peers
  line : ∀ p, CarriesLine readers (w.line p) (r.line p)
  wellFormed : ∀ p, (r.peers p).MapsWellFormed

variable {readers : Readers} {upstream : ι → Option ι} {w : WireReplicas ι} {r : Replicas ι}

/-- A response that carries little more than a megabyte is not too large. -/
theorem response_fits {batch : ChangeBatch}
    (hsmall : (batch.changes.map fun change => change.toJson.size).sum + batch.changes.length ≤
      2 ^ 20) :
    (SyncMessage.response batch).toJson.bytes.length ≤ maxMessageSize := by
  have hsize := size_response batch
  have hoffset := size_num_le batch.offset.toNat_lt
  have hflag : (Value.bool batch.isFinal).size ≤ 5 := by
    cases batch.isFinal <;> decide
  rw [Value.size] at hsize
  rw [hsize, maxMessageSize]
  omega

/-- No message is encoded as nothing. -/
theorem message_size_pos (msg : SyncMessage) : 0 < msg.toJson.bytes.length := by
  have hobj : ∀ fields, 0 < (Value.obj fields).bytes.length := fun fields => by
    have hsize := size_obj fields
    rw [Value.size] at hsize
    omega
  cases msg <;> exact hobj _

/-- A framed message that is not too large is received, if its maps are well formed. -/
theorem received_framed (hreaders : readers.Lossless) {msg : SyncMessage}
    (hmsg : msg.MapsWellFormed) (hle : msg.toJson.bytes.length ≤ maxMessageSize) :
    ∃ bytes, framed msg = some bytes ∧ received readers bytes = some msg := by
  refine ⟨frame be msg.toJson.bytes, rfl, ?_⟩
  have hread : readFrame be maxMessageSize (frame be msg.toJson.bytes) =
      .body msg.toJson.bytes [] := by
    rw [← List.append_nil (frame be msg.toJson.bytes)]
    exact readFrame_frame (message_size_pos msg) hle
      (Nat.lt_of_le_of_lt hle maxMessageSize_lt) []
  simp only [received, hread, decodeMessage_bytes hreaders (SyncMessage.fits_toJson _ 122)
    (SyncMessage.fromJson_toJson hreaders hmsg), Except.toOption]

/-- What is received has well-formed maps. -/
theorem received_wellFormed {bytes : Bytes} {msg : SyncMessage}
    (h : received readers bytes = some msg) : msg.MapsWellFormed := by
  unfold received at h
  split at h
  · next body rest hread =>
      cases hdecode : decodeMessage readers body with
      | error e => simp [hdecode, Except.toOption] at h
      | ok decoded =>
          obtain rfl : decoded = msg := by simpa [hdecode, Except.toOption] using h
          exact decoded_wellFormed hdecode
  · contradiction

omit [DecidableEq ι] in
theorem carries_new (maxChanges : ι → UInt64) :
    Carries readers (WireReplicas.new maxChanges) (Replicas.new maxChanges) :=
  ⟨rfl, fun _ => .idle, fun _ _ hchange => absurd hchange List.not_mem_nil⟩

/-- What is under way changes for one peer. -/
theorem Carries.setLine (h : Carries readers w r) (p : ι) {wireLine : WireLine} {line : Line}
    (hline : CarriesLine readers wireLine line) :
    Carries readers { w with line := Function.update w.line p wireLine }
      { r with line := Function.update r.line p line } := by
  refine ⟨h.peers, fun q => ?_, h.wellFormed⟩
  by_cases hq : q = p
  · subst hq
    simpa using hline
  · simpa [Function.update_of_ne hq] using h.line q

/-- One peer records changes with well-formed maps. -/
theorem Carries.grow (h : Carries readers w r) (p : ι) {cs : List Change}
    (hcs : ∀ change ∈ cs, change.MapWellFormed) :
    Carries readers { w with peers := Function.update w.peers p ((w.peers p).recordAll cs) }
      { r with peers := Function.update r.peers p ((r.peers p).recordAll cs) } := by
  refine ⟨by rw [h.peers], h.line, fun q => ?_⟩
  by_cases hq : q = p
  · subst hq
    simpa using (h.wellFormed q).recordAll hcs
  · simpa [Function.update_of_ne hq] using h.wellFormed q

/-! ## Steps -/

/-- A peer asks. -/
theorem Carries.ask (hreaders : readers.Lossless) (h : Carries readers w r) (p : ι)
    (limit : Option UInt64) :
    Carries readers (w.next readers upstream (.ask p limit)) (r.next upstream (.ask p limit)) := by
  have hline := h.line p
  have hmaps : (SyncMessage.request (r.peers p).offset limit).MapsWellFormed := trivial
  rcases received_framed hreaders hmaps (request_size _ _).2 with ⟨bytes, hframed, hreceived⟩
  rw [WireReplicas.next, Replicas.next, h.peers]
  generalize hw : w.line p = wireLine at hline ⊢
  generalize hr : r.line p = line at hline ⊢
  cases hline with
  | idle =>
      simp only [hframed]
      exact h.peers ▸ h.setLine p (.request hreceived)
  | request => exact h
  | answer => exact h

/-- A request is served. -/
theorem Carries.serve (hreaders : readers.Lossless) (h : Carries readers w r) (p : ι)
    (localOffset : UInt64) (hfits : FitsFrame upstream r (.serve p localOffset)) :
    Carries readers (w.next readers upstream (.serve p localOffset))
      (r.next upstream (.serve p localOffset)) := by
  have hline := h.line p
  rw [WireReplicas.next, Replicas.next]
  generalize hw : w.line p = wireLine at hline ⊢
  generalize hr : r.line p = line at hline ⊢
  cases hline with
  | idle => exact h
  | answer => exact h
  | @request bytes msg hreceived =>
      cases hserver : upstream p with
      | none => exact h
      | some server =>
          have hreply : ((r.peers server).processMessage msg localOffset).2.MapsWellFormed :=
            SyncMessage.mapsWellFormed_of_changes fun change hchange =>
              h.wellFormed server change (mem_processMessage hchange)
          rcases received_framed hreaders hreply (hfits server msg hserver hr) with
            ⟨reply, hframed, hback⟩
          simp only [hreceived, h.peers, hframed, processMessage_recordAll]
          have hgrow := (h.grow server (received_wellFormed hreceived).changes).setLine p
            (.answer hback)
          rw [h.peers] at hgrow
          exact hgrow

/-- A response is taken. -/
theorem Carries.take (h : Carries readers w r) (p : ι) (localOffset : UInt64) :
    Carries readers (w.next readers upstream (.take p localOffset))
        (r.next upstream (.take p localOffset)) ∧
      w.brought readers (.take p localOffset) = r.brought (.take p localOffset) := by
  have hline := h.line p
  rw [WireReplicas.next, Replicas.next, WireReplicas.brought, Replicas.brought]
  generalize hw : w.line p = wireLine at hline ⊢
  generalize hr : r.line p = line at hline ⊢
  cases hline with
  | idle => exact ⟨h, rfl⟩
  | request => exact ⟨h, rfl⟩
  | @answer bytes msg hreceived =>
      simp only [hreceived, h.peers, processMessage_recordAll, and_true]
      have hgrow := (h.grow p (received_wellFormed hreceived).changes).setLine p .idle
      rw [h.peers] at hgrow
      exact hgrow

/-- Every step. -/
theorem Carries.next (hreaders : readers.Lossless) (h : Carries readers w r)
    {event : ReplicaEvent ι} (hfits : FitsFrame upstream r event) :
    Carries readers (w.next readers upstream event) (r.next upstream event) ∧
      w.brought readers event = r.brought event := by
  cases event with
  | record p change =>
      have hchange : ∀ c ∈ [change], c.MapWellFormed := fun c hc => by
        rw [List.mem_singleton.mp hc]
        exact hfits
      exact ⟨h.grow p hchange, rfl⟩
  | ask p limit => exact ⟨h.ask hreaders p limit, rfl⟩
  | serve p localOffset => exact ⟨h.serve hreaders p localOffset hfits, rfl⟩
  | take p localOffset => exact h.take p localOffset
  | lose p => exact ⟨h.setLine p .idle, rfl⟩

/-! ## Whole runs -/

theorem Carries.run (hreaders : readers.Lossless) (h : Carries readers w r)
    {events : List (ReplicaEvent ι)}
    (hfits : (replicas upstream).Along (FitsFrame upstream) r events) :
    Carries readers ((wireReplicas readers upstream).run w events)
        ((replicas upstream).run r events) ∧
      (wireReplicas readers upstream).answers w events =
        (replicas upstream).answers r events := by
  induction events generalizing w r with
  | nil => exact ⟨h, rfl⟩
  | cons event events ih =>
      rcases h.next hreaders hfits.1 with ⟨hnext, hbrought⟩
      rcases ih hnext hfits.2 with ⟨hrun, hanswers⟩
      refine ⟨hrun, ?_⟩
      rw [answers_cons, answers_cons]
      exact congrArg₂ _ hbrought hanswers

/-- However the steps are interleaved and whatever is lost: as long as what is recorded has
metadata with distinct keys and no response is too large, the logs of the peers and what is
brought to them are over bytes what they are with messages. -/
theorem wire_refines_replicas (readers : Readers) (hreaders : readers.Lossless)
    (upstream : ι → Option ι) (maxChanges : ι → UInt64) (events : List (ReplicaEvent ι))
    (hfits : (replicas upstream).Along (FitsFrame upstream) (.new maxChanges) events) :
    ((wireReplicas readers upstream).run (.new maxChanges) events).peers =
        ((replicas upstream).run (.new maxChanges) events).peers ∧
      ∀ peer, wireHistory readers upstream (.new maxChanges) events peer =
        history upstream (.new maxChanges) events peer := by
  rcases (carries_new maxChanges).run hreaders hfits with ⟨hrun, hanswers⟩
  refine ⟨hrun.peers, fun peer => ?_⟩
  rw [wireHistory, history, hanswers]

set_option maxRecDepth 4000 in
theorem sampleChange_size : sampleChange.toJson.size ≤ 1000 := by decide

/-- A response with one small change. -/
theorem sampleResponse_fits (offset : UInt64) (isFinal : Bool) :
    (SyncMessage.response ⟨offset, [sampleChange], isFinal⟩).toJson.bytes.length ≤
      maxMessageSize := by
  refine response_fits ?_
  have hsize := sampleChange_size
  simp only [List.map_cons, List.map_nil, List.sum_cons, List.sum_nil, List.length_singleton]
  omega

/-- The sample run over bytes. -/
theorem wire_refines_replicas_sample :
    ((wireReplicas Readers.compact sampleUpstream).run (.new fun _ => 10)
        sampleReplication).peers =
        ((replicas sampleUpstream).run (.new fun _ => 10) sampleReplication).peers ∧
      ∀ peer, wireHistory Readers.compact sampleUpstream (.new fun _ => 10) sampleReplication
          peer =
        history sampleUpstream (.new fun _ => 10) sampleReplication peer := by
  refine wire_refines_replicas Readers.compact compact_lossless sampleUpstream (fun _ => 10)
    sampleReplication ⟨trivial, (by decide : sampleChange.MapWellFormed), ?_, trivial, trivial, ?_,
      trivial, trivial⟩
  · rintro server msg hserver hrequest
    cases hserver
    cases hrequest
    exact sampleResponse_fits 1 true
  · rintro server msg hserver hrequest
    cases hserver
    cases hrequest
    exact response_fits (by decide)

end IrohSync
