import IrohSync.Sync.Deadlock
import IrohSync.Sync.SessionRun

/-!
# The receive loop over a stream of messages

What the accepting side makes of the frames of messages, with anything behind
them: it answers each message once and in order, and stops at a zero length, at
the end of the stream or at a length that is too large.

Main results:

- Theorem {lit}`receive_frames`: the loop passes over the frames of messages.
- Theorem {lit}`framing_lossless`: the three ways in which a stream of messages
  ends.
-/

namespace IrohSync

open FileIo Framing Loop

/-- Process messages one after the other. -/
def SyncManager.answerAll (localOffset : UInt64) :
    SyncManager → List SyncMessage → SyncManager × List SyncMessage
  | m, [] => (m, [])
  | m, msg :: msgs =>
      let processed := m.processMessage msg localOffset
      let rest := answerAll localOffset processed.1 msgs
      (rest.1, processed.2 :: rest.2)

/-- The encodings of messages. -/
def Wire.Encodes (wire : Wire) (msgs : List SyncMessage) (bodies : List Bytes) : Prop :=
  List.Forall₂ (fun msg body => wire.encode msg = .ok body) msgs bodies

/-- What a loop has done when it ends. -/
structure Handled (m : SyncManager) (localOffset : UInt64) (msgs : List SyncMessage)
    (responses : List Bytes) (s : ReceiveState) : Prop where
  answered : s.answered = msgs
  manager : s.manager = (m.answerAll localOffset msgs).1
  written : s.written = frames be responses

section

variable {wire : Wire} {write : Nat → Option String} {localOffset : UInt64}

/-! ## Single passes -/

/-- A whole message in front of the reader is read. -/
theorem readFrame_message {bytes body rest : Bytes} (hbytes : bytes = frame be body ++ rest)
    (hpos : 0 < body.length) (hle : body.length ≤ maxMessageSize) :
    readFrame be maxMessageSize bytes = .body body rest := by
  rw [hbytes]
  exact readFrame_frame hpos hle (Nat.lt_of_le_of_lt hle maxMessageSize_lt) rest

/-- A message that decodes, with a response that encodes and writes that succeed,
is answered. -/
theorem receivePass_frame {s : ReceiveState} {msg : SyncMessage} {body response rest : Bytes}
    (hrest : s.rest = frame be body ++ rest) (hpos : 0 < body.length)
    (hle : body.length ≤ maxMessageSize) (hdecode : wire.decode body = .ok msg)
    (hencode : wire.encode (s.manager.processMessage msg localOffset).2 = .ok response)
    (hlength : write (2 * s.answered.length) = none)
    (hbytes : write (2 * s.answered.length + 1) = none) :
    receivePass wire write localOffset s = .next
      { manager := (s.manager.processMessage msg localOffset).1
        rest := rest
        answered := s.answered ++ [msg]
        written := s.written ++ frame be response } := by
  simp only [receivePass, readFrame_message hrest hpos hle, hdecode, answerMessage, hencode,
    hlength, hbytes]

/-- A zero length ends the loop. -/
theorem receive_marker {s : ReceiveState} {rest : Bytes} (hrest : s.rest = be.write 0 ++ rest) :
    (receiveBody wire write localOffset).run s = ({ s with rest := rest }, .ok ()) := by
  apply Body.run_done
  have hread := readFrame_marker (p := be) maxMessageSize rest
  rw [← hrest] at hread
  simp only [receiveBody, receivePass, hread]

/-- A length that is too large is an error. -/
theorem receive_oversized {s : ReceiveState} {len : Nat} {rest : Bytes}
    (hrest : s.rest = be.write len ++ rest) (hlarge : maxMessageSize < len) (hlen : len < 2 ^ 32) :
    (receiveBody wire write localOffset).run s =
      ({ s with rest := rest }, .error oversizedError) := by
  apply Body.run_done
  have hread := readFrame_oversized (p := be) hlarge hlen rest
  rw [← hrest] at hread
  simp only [receiveBody, receivePass, hread]

/-- A stream with less than a length left ends the loop. -/
theorem receive_short {s : ReceiveState} (hshort : s.rest.length < 4) :
    (receiveBody wire write localOffset).run s = (s, .ok ()) := by
  apply Body.run_done
  simp only [receiveBody, receivePass, readFrame_short hshort]

/-- A zero length that is cut anywhere ends the loop as well. -/
theorem receive_marker_cut (wire : Wire) (write : Nat → Option String) (localOffset : UInt64)
    {s : ReceiveState} {trailing : Bytes} {n : Nat}
    (hrest : s.rest = (be.write 0 ++ trailing).take n) :
    ∃ rest, (receiveBody wire write localOffset).run s = ({ s with rest := rest }, .ok ()) := by
  by_cases hshort : n < 4
  · refine ⟨s.rest, receive_short ?_⟩
    rw [hrest, List.length_take]
    omega
  · refine ⟨trailing.take (n - 4), receive_marker ?_⟩
    rw [hrest, List.take_append, be.length_write,
      List.take_of_length_le (by rw [be.length_write]; omega)]

/-- A frame that is cut anywhere ends the loop. -/
theorem receive_torn (wire : Wire) (write : Nat → Option String) (localOffset : UInt64)
    {s : ReceiveState} {body : Bytes} {n : Nat} (hrest : s.rest = (frame be body).take n)
    (hle : body.length ≤ maxMessageSize) (hcut : n < 4 + body.length) :
    ∃ rest, (receiveBody wire write localOffset).run s = ({ s with rest := rest }, .ok ()) := by
  by_cases hshort : n < 4
  · refine ⟨s.rest, receive_short ?_⟩
    rw [hrest, List.length_take]
    omega
  · refine ⟨body.take (n - 4), Body.run_done _ _ ?_⟩
    have htake : s.rest = be.write body.length ++ body.take (n - 4) := by
      rw [hrest, frame, List.take_append, be.length_write,
        List.take_of_length_le (by rw [be.length_write]; omega)]
    have htorn : (body.take (n - 4)).length < body.length := by
      rw [List.length_take]
      omega
    have hread := readFrame_cut (p := be) hle (Nat.lt_of_le_of_lt hle maxMessageSize_lt) htorn
    rw [← htake] at hread
    simp only [receiveBody, receivePass, hread]

/-! ## A stream of messages -/

/-- The loop passes over the frames of messages and has answered them. -/
theorem receive_frames
    (hdecode : ∀ msg body, wire.encode msg = .ok body → wire.decode body = .ok msg)
    (hwrite : ∀ i, write i = none) {msgs : List SyncMessage} {bodies responses : List Bytes}
    (hbodies : wire.Encodes msgs bodies)
    (hsize : ∀ body ∈ bodies, 1 ≤ body.length ∧ body.length ≤ maxMessageSize) {s : ReceiveState}
    (hresponses : wire.Encodes (s.manager.answerAll localOffset msgs).2 responses) {tail : Bytes}
    (hrest : s.rest = frames be bodies ++ tail) :
    (receiveBody wire write localOffset).run s = (receiveBody wire write localOffset).run
      { manager := (s.manager.answerAll localOffset msgs).1
        rest := tail
        answered := s.answered ++ msgs
        written := s.written ++ frames be responses } := by
  induction hbodies generalizing s responses with
  | nil =>
      cases hresponses
      simp only [SyncManager.answerAll, List.append_nil, frames_nil]
      rw [frames_nil, List.nil_append] at hrest
      rw [← hrest]
  | @cons msg body msgs bodies hencode _ ih =>
      cases hresponses with
      | @cons _ response _ responses hresponse hrestResponses =>
          rcases hsize body List.mem_cons_self with ⟨hpos, hle⟩
          rw [frames_cons, List.append_assoc] at hrest
          have hpass := receivePass_frame hrest hpos hle (hdecode msg body hencode) hresponse
            (hwrite _) (hwrite _)
          rw [Body.run_next _ _ hpass,
            ih (s := ⟨_, _, s.answered ++ [msg], s.written ++ frame be response⟩)
              (fun b hb => hsize b (List.mem_cons_of_mem _ hb)) hrestResponses rfl]
          simp [SyncManager.answerAll]

/-- The first responses are those to the first messages. -/
theorem answerAll_take (m : SyncManager) (localOffset : UInt64) (msgs : List SyncMessage)
    (j : Nat) :
    (m.answerAll localOffset (msgs.take j)).2 = (m.answerAll localOffset msgs).2.take j := by
  induction msgs generalizing m j with
  | nil => simp [SyncManager.answerAll]
  | cons msg msgs ih =>
      cases j with
      | zero => rfl
      | succ j => simp only [List.take_succ_cons, SyncManager.answerAll, ih]

/-- What the loop has done behind the frames of messages. -/
theorem handled_frames {m : SyncManager} {msgs : List SyncMessage} {responses : List Bytes}
    (rest : Bytes) : Handled m localOffset msgs responses
      { manager := (m.answerAll localOffset msgs).1, rest := rest, answered := [] ++ msgs,
        written := [] ++ frames be responses } where
  answered := rfl
  manager := rfl
  written := rfl

/-- A cut stream of messages is answered up to the last frame that is complete. -/
theorem receive_cut
    (hdecode : ∀ msg body, wire.encode msg = .ok body → wire.decode body = .ok msg)
    (hwrite : ∀ i, write i = none) {m : SyncManager} {msgs : List SyncMessage}
    {bodies responses : List Bytes} (hbodies : wire.Encodes msgs bodies)
    (hsize : ∀ body ∈ bodies, 1 ≤ body.length ∧ body.length ≤ maxMessageSize)
    (hresponses : wire.Encodes (m.answerAll localOffset msgs).2 responses) (trailing : Bytes)
    (n : Nat) :
    ∃ j ≤ msgs.length, (frames be (bodies.take j)).length ≤ n ∧
      (j < msgs.length → n < (frames be (bodies.take (j + 1))).length) ∧
      ∃ s, (receiveBody wire write localOffset).run
          (.start m ((frames be bodies ++ (be.write 0 ++ trailing)).take n)) = (s, .ok ()) ∧
        Handled m localOffset (msgs.take j) (responses.take j) s := by
  have hcount := hbodies.length_eq
  rcases cut_frames be bodies (be.write 0 ++ trailing) n with ⟨j, hj, hlen, hcut⟩
  refine ⟨j, hcount ▸ hj, hlen, ?_, ?_⟩
  · intro hlt
    rcases hcut with ⟨hall, _⟩ | ⟨body, k, hget, hk, hn, _⟩
    · omega
    · rw [frames_take_succ be hget, List.length_append, frame_length]
      omega
  · have hresponses' : wire.Encodes (m.answerAll localOffset (msgs.take j)).2
        (responses.take j) := by
      rw [answerAll_take]
      exact List.forall₂_take j hresponses
    have hframes : ∀ tail, (receiveBody wire write localOffset).run
        (.start m (frames be (bodies.take j) ++ tail)) = _ := fun tail =>
      receive_frames hdecode hwrite (List.forall₂_take j hbodies)
        (fun b hb => hsize b (List.mem_of_mem_take hb)) hresponses' rfl
    rcases hcut with ⟨hall, hcut⟩ | ⟨body, k, hget, hk, _, hcut⟩
    · have htake : bodies.take j = bodies := by rw [hall, List.take_length]
      rw [htake] at hframes
      rw [hcut, hframes]
      rcases receive_marker_cut wire write localOffset
        (s := ⟨(m.answerAll localOffset (msgs.take j)).1, _, [] ++ msgs.take j,
          [] ++ frames be (responses.take j)⟩) rfl with ⟨rest, hrun⟩
      exact ⟨_, hrun, handled_frames rest⟩
    · rw [hcut, hframes]
      have hbody := (hsize body (List.mem_of_getElem? hget)).2
      rcases receive_torn wire write localOffset
        (s := ⟨(m.answerAll localOffset (msgs.take j)).1, _, [] ++ msgs.take j,
          [] ++ frames be (responses.take j)⟩) rfl hbody hk with ⟨rest, hrun⟩
      exact ⟨_, hrun, handled_frames rest⟩

end

/-- Messages of between 1 byte and the maximum, with responses that encode and
writes that succeed.  Behind them a zero length ends the loop, and what follows it
is left alone; a cut leaves the messages whose frames are complete; a length that
is too large is an error. -/
theorem framing_lossless (wire : Wire)
    (hdecode : ∀ msg body, wire.encode msg = .ok body → wire.decode body = .ok msg)
    (write : Nat → Option String) (hwrite : ∀ i, write i = none) (m : SyncManager)
    (localOffset : UInt64) (msgs : List SyncMessage) (bodies responses : List Bytes)
    (hbodies : wire.Encodes msgs bodies)
    (hsize : ∀ body ∈ bodies, 1 ≤ body.length ∧ body.length ≤ maxMessageSize)
    (hresponses : wire.Encodes (m.answerAll localOffset msgs).2 responses) :
    (∀ trailing, ∃ s, (receiveBody wire write localOffset).run
        (.start m (frames be bodies ++ (be.write 0 ++ trailing))) = (s, .ok ()) ∧
      Handled m localOffset msgs responses s ∧ s.rest = trailing) ∧
    (∀ trailing n, ∃ j ≤ msgs.length, (frames be (bodies.take j)).length ≤ n ∧
      (j < msgs.length → n < (frames be (bodies.take (j + 1))).length) ∧
      ∃ s, (receiveBody wire write localOffset).run
          (.start m ((frames be bodies ++ (be.write 0 ++ trailing)).take n)) = (s, .ok ()) ∧
        Handled m localOffset (msgs.take j) (responses.take j) s) ∧
    ∀ len rest, maxMessageSize < len → len < 2 ^ 32 →
      ∃ s, (receiveBody wire write localOffset).run
          (.start m (frames be bodies ++ (be.write len ++ rest))) = (s, .error oversizedError) ∧
        Handled m localOffset msgs responses s := by
  have hframes : ∀ tail, (receiveBody wire write localOffset).run
      (.start m (frames be bodies ++ tail)) = _ := fun tail =>
    receive_frames hdecode hwrite hbodies hsize hresponses rfl
  refine ⟨fun trailing => ?_, ?_, fun len rest hlarge hlen => ?_⟩
  · rw [hframes, receive_marker rfl]
    exact ⟨_, rfl, handled_frames trailing, rfl⟩
  · exact receive_cut hdecode hwrite hbodies hsize hresponses
  · rw [hframes, receive_oversized rfl hlarge hlen]
    exact ⟨_, rfl, handled_frames rest⟩

/-- A sample request is not empty and not too large. -/
theorem sampleRequest_size :
    ∀ body ∈ [sampleRequest, sampleRequest],
      1 ≤ body.length ∧ body.length ≤ maxMessageSize := by
  intro body hbody
  obtain rfl : body = sampleRequest := List.eq_of_mem_replicate (n := 2) hbody
  exact ⟨List.length_pos_iff.mpr sample_not_prefix.2.2.1, sample_small.1⟩

/-- The request of a new peer, twice. -/
def sampleRequests : List SyncMessage :=
  [.request 0 (some 1000), .request 0 (some 1000)]

/-- The requests of a new peer as a stream of two messages. -/
theorem framing_lossless_sample :
    (∀ trailing, ∃ s, (receiveBody sampleWire (fun _ => none) 0).run
        (.start (.new 10000)
          (frames be [sampleRequest, sampleRequest] ++ (be.write 0 ++ trailing))) = (s, .ok ()) ∧
      Handled (.new 10000) 0 sampleRequests [sampleResponse, sampleResponse] s ∧
      s.rest = trailing) ∧
    (∀ trailing n, ∃ j ≤ sampleRequests.length,
      (frames be ([sampleRequest, sampleRequest].take j)).length ≤ n ∧
      (j < sampleRequests.length →
        n < (frames be ([sampleRequest, sampleRequest].take (j + 1))).length) ∧
      ∃ s, (receiveBody sampleWire (fun _ => none) 0).run (.start (.new 10000)
          ((frames be [sampleRequest, sampleRequest] ++ (be.write 0 ++ trailing)).take n)) =
            (s, .ok ()) ∧
        Handled (.new 10000) 0 (sampleRequests.take j)
          ([sampleResponse, sampleResponse].take j) s) ∧
    ∀ len rest, maxMessageSize < len → len < 2 ^ 32 →
      ∃ s, (receiveBody sampleWire (fun _ => none) 0).run (.start (.new 10000)
          (frames be [sampleRequest, sampleRequest] ++ (be.write len ++ rest))) =
            (s, .error oversizedError) ∧
        Handled (.new 10000) 0 sampleRequests [sampleResponse, sampleResponse] s :=
  framing_lossless sampleWire (fun _ _ => sampleWire_lawful.decode_encode) (fun _ => none)
    (fun _ => rfl) (.new 10000) 0 sampleRequests [sampleRequest, sampleRequest]
    [sampleResponse, sampleResponse] (.cons rfl (.cons rfl .nil)) sampleRequest_size
    (.cons rfl (.cons rfl .nil))

end IrohSync
