import IrohSync.Sync.Codec
import IrohSync.Sync.Paging
import IrohSync.Sync.ReceiveLoop
import IrohSync.Sync.Replicas
import IrohSync.Sync.Validity

/-!
# What an accepting side serves

The accepting side with the codec of messages, over bytes.  The stream is whatever a peer
sends: no frame has to be one that an encoder wrote.

Main results:

- Theorem {lit}`decoded_wellFormed`: what is decoded can be encoded and decoded again.
- Theorem {lit}`served_any_stream`: what the accepting side has recorded and written when
  its loop ends, for every stream and every outcome of its writes.
- Theorem {lit}`wire_paging`: a client that pages through a log over a connection.
-/

namespace IrohSync

open FileIo Framing Loop Json Text BoundedLog

/-! ## Well-formed maps -/

/-- The keys of the metadata map are distinct. -/
def Change.MapWellFormed (change : Change) : Prop :=
  (change.metadata.map Prod.fst).Nodup

instance (change : Change) : Decidable change.MapWellFormed :=
  inferInstanceAs (Decidable (List.Nodup _))

/-- The metadata maps of all changes in the log are well formed. -/
def SyncManager.MapsWellFormed (m : SyncManager) : Prop :=
  ∀ change ∈ m.changes, change.MapWellFormed

variable {readers : Readers}

theorem Change.wellFormed_fromJson {buffered : Bool} {v : Value} {change : Change}
    (hread : Change.fromJson readers buffered v = some change) : change.MapWellFormed := by
  simp only [Change.fromJson, Option.bind_eq_bind, Option.bind_eq_some_iff, Option.pure_def,
    Option.some.injEq] at hread
  rcases hread with ⟨fields, _, id, _, timestamp, _, ns, _, database, _, table, _, operation, _,
    key, _, value, _, metadata, hmetadata, rfl⟩
  rcases Option.bind_eq_some_iff.mp hmetadata with ⟨found, _, hfound⟩
  cases found with
  | none =>
      obtain rfl := Option.some.inj hfound
      exact List.nodup_nil
  | some w => exact nodup_textMap hfound

theorem ChangeBatch.wellFormed_fromJson {buffered : Bool} {v : Value} {batch : ChangeBatch}
    (hread : ChangeBatch.fromJson readers buffered v = some batch) :
    ∀ change ∈ batch.changes, change.MapWellFormed := by
  simp only [ChangeBatch.fromJson, Option.bind_eq_bind, Option.bind_eq_some_iff, Option.pure_def,
    Option.some.injEq] at hread
  rcases hread with ⟨fields, _, offset, _, changes, hchanges, isFinal, _, rfl⟩
  rcases Option.bind_eq_some_iff.mp hchanges with ⟨found, _, hfound⟩
  rcases Option.bind_eq_some_iff.mp hfound with ⟨w, _, hitems⟩
  cases w with
  | arr items => exact forall_of_mapM (fun _ _ => Change.wellFormed_fromJson) hitems
  | _ => simp [Value.items] at hitems

/-- The maps of a message that is read from its tag and its content are well formed. -/
theorem SyncMessage.wellFormed_contentFromJson {buffered : Bool} {tag : String}
    {data : Option Value} {msg : SyncMessage}
    (hmsg : contentFromJson readers buffered tag data = some msg) : msg.MapsWellFormed := by
  have hbare : ∀ (bare : SyncMessage) (data : Option Value), bareFromJson bare data = some msg →
      msg = bare := by
    intro bare data hbare
    unfold bareFromJson at hbare
    split at hbare
    · exact (Option.some.inj hbare).symm
    · exact (Option.some.inj hbare).symm
    · contradiction
  unfold contentFromJson at hmsg
  split at hmsg
  · simp only [requestFromJson, Option.bind_eq_bind, Option.bind_eq_some_iff, Option.pure_def,
      Option.some.injEq] at hmsg
    rcases hmsg with ⟨w, _, fields, _, offset, _, limit, _, rfl⟩
    trivial
  · rcases Option.map_eq_some_iff.mp hmsg with ⟨batch, hbatch, rfl⟩
    rcases Option.bind_eq_some_iff.mp hbatch with ⟨w, _, hread⟩
    exact ChangeBatch.wellFormed_fromJson hread
  · simp only [ackFromJson, Option.bind_eq_bind, Option.bind_eq_some_iff, Option.pure_def,
      Option.some.injEq] at hmsg
    rcases hmsg with ⟨w, _, fields, _, offset, _, rfl⟩
    trivial
  · rw [hbare _ _ hmsg]
    trivial
  · rw [hbare _ _ hmsg]
    trivial
  · contradiction

/-- The maps of a message that is read are well formed. -/
theorem SyncMessage.wellFormed_fromJson {v : Value} {msg : SyncMessage}
    (hread : SyncMessage.fromJson readers v = some msg) : msg.MapsWellFormed := by
  unfold SyncMessage.fromJson at hread
  split at hread
  · simp only [Option.bind_eq_bind, Option.bind_eq_some_iff] at hread
    rcases hread with ⟨tag, _, data, _, hmsg⟩
    exact SyncMessage.wellFormed_contentFromJson hmsg
  · exact SyncMessage.wellFormed_contentFromJson hread
  · contradiction

/-- The maps of a message that is decoded are well formed. -/
theorem decoded_wellFormed {data : Bytes} {msg : SyncMessage}
    (hdecode : decodeMessage readers data = .ok msg) : msg.MapsWellFormed := by
  unfold decodeMessage at hdecode
  split at hdecode
  · next read hread =>
      injection hdecode with hmsg
      rcases Option.bind_eq_some_iff.mp hread with ⟨v, _, hjson⟩
      exact SyncMessage.wellFormed_fromJson (hmsg ▸ hjson)
  · contradiction

/-- The changes of a well-formed message are well formed. -/
theorem SyncMessage.MapsWellFormed.changes {msg : SyncMessage} (h : msg.MapsWellFormed) :
    ∀ change ∈ msg.changes, change.MapWellFormed := by
  cases msg with
  | response batch => exact h
  | _ => simp [SyncMessage.changes]

/-- A message with well-formed changes is well formed. -/
theorem SyncMessage.mapsWellFormed_of_changes {msg : SyncMessage}
    (h : ∀ change ∈ msg.changes, change.MapWellFormed) : msg.MapsWellFormed := by
  cases msg with
  | response batch => exact h
  | _ => trivial

/-- Well-formed changes may be recorded. -/
theorem SyncManager.MapsWellFormed.recordAll {m : SyncManager} (h : m.MapsWellFormed)
    {cs : List Change} (hcs : ∀ change ∈ cs, change.MapWellFormed) :
    (m.recordAll cs).MapsWellFormed := by
  intro change hchange
  rcases mem_recordAll hchange with hold | hnew
  · exact h change hold
  · exact hcs change hnew

/-! ## Encoding a response -/

/-- The response of a well-formed manager is decoded from its encoding. -/
theorem decode_reply (hreaders : readers.Lossless) {m : SyncManager} (hm : m.MapsWellFormed)
    {msg : SyncMessage} {localOffset : UInt64} {reply : Bytes}
    (hencode : readers.wire.encode (m.processMessage msg localOffset).2 = .ok reply) :
    decodeMessage readers reply = .ok (m.processMessage msg localOffset).2 := by
  have hwell : (m.processMessage msg localOffset).2.MapsWellFormed :=
    SyncMessage.mapsWellFormed_of_changes fun change hchange =>
      hm change (mem_processMessage hchange)
  obtain rfl : (m.processMessage msg localOffset).2.toJson.bytes = reply := Except.ok.inj hencode
  exact decodeMessage_bytes hreaders (SyncMessage.fits_toJson _ 122)
    (SyncMessage.fromJson_toJson hreaders hwell)

/-! ## The responses to a list of messages -/

/-- Processing messages records their changes. -/
theorem answerAll_manager (m : SyncManager) (localOffset : UInt64) (msgs : List SyncMessage) :
    (m.answerAll localOffset msgs).1 = m.recordAll (msgs.flatMap SyncMessage.changes) := by
  induction msgs generalizing m with
  | nil => rfl
  | cons msg msgs ih =>
      rw [SyncManager.answerAll, List.flatMap_cons, recordAll_append, ← processMessage_recordAll]
      exact ih _

/-- One message more has one response more. -/
theorem answerAll_concat (m : SyncManager) (localOffset : UInt64) (msgs : List SyncMessage)
    (msg : SyncMessage) :
    (m.answerAll localOffset (msgs ++ [msg])).2 = (m.answerAll localOffset msgs).2 ++
      [((m.answerAll localOffset msgs).1.processMessage msg localOffset).2] := by
  induction msgs generalizing m with
  | nil => rfl
  | cons first msgs ih => simp only [List.cons_append, SyncManager.answerAll, ih]

/-! ## Any stream -/

/-- A message is answered, or an error ends the loop; then at most the length of the response
was written. -/
theorem answerMessage_cases (wire : Wire) (write : Nat → Option String) (localOffset : UInt64)
    (s : ReceiveState) (request : SyncMessage) :
    (∃ encoded, wire.encode (s.manager.processMessage request localOffset).2 = .ok encoded ∧
      answerMessage wire write localOffset s request = .next
        { manager := (s.manager.processMessage request localOffset).1
          rest := s.rest
          answered := s.answered ++ [request]
          written := s.written ++ frame be encoded }) ∨
      ∃ e cut, answerMessage wire write localOffset s request = .done
        ({ s with
            manager := (s.manager.processMessage request localOffset).1
            written := s.written ++ cut }, .error e) ∧
        (cut = [] ∨ ∃ encoded, cut = be.write encoded.length ∧
          wire.encode (s.manager.processMessage request localOffset).2 = .ok encoded) := by
  unfold answerMessage
  cases hencode : wire.encode (s.manager.processMessage request localOffset).2 with
  | error e => exact Or.inr ⟨.encoding e, [], by simp [hencode], Or.inl rfl⟩
  | ok encoded =>
      cases hlength : write (2 * s.answered.length) with
      | some e => exact Or.inr ⟨.connection e, [], by simp [hencode, hlength], Or.inl rfl⟩
      | none =>
          cases hbytes : write (2 * s.answered.length + 1) with
          | some e =>
              exact Or.inr ⟨.connection e, be.write encoded.length,
                by simp [hencode, hlength, hbytes], Or.inr ⟨encoded, rfl, rfl⟩⟩
          | none => exact Or.inl ⟨encoded, rfl, by simp [hencode, hlength, hbytes]⟩

/-- What an accepting side has made of a stream of which these bytes are left: in front of
them are frames of messages, it has recorded what they carry and nothing else, and it has
written frames from which the responses to the answered ones are decoded, with some bytes
behind them. -/
structure Serving (readers : Readers) (localOffset : UInt64) (m : SyncManager)
    (bytes left : Bytes) (processed : List SyncMessage) (cut : Bytes) (s : ReceiveState) :
    Prop where
  stream : DecodedFront readers.wire bytes left processed
  manager : s.manager = m.recordAll (processed.flatMap SyncMessage.changes)
  wellFormed : s.manager.MapsWellFormed
  written : ∃ replies, s.written = frames be replies ++ cut ∧
    List.Forall₂ (fun reply response => decodeMessage readers reply = .ok response) replies
      (m.answerAll localOffset s.answered).2

variable {localOffset : UInt64} {m : SyncManager} {bytes : Bytes} {s : ReceiveState}

/-- One more message is processed. -/
theorem Serving.process {left body rest cut : Bytes} {processed : List SyncMessage}
    {request : SyncMessage} (h : Serving readers localOffset m bytes left processed cut s)
    (hread : readFrame be maxMessageSize left = .body body rest)
    (hdecode : decodeMessage readers body = .ok request) :
    Serving readers localOffset m bytes rest (processed ++ [request]) cut
      { s with manager := (s.manager.processMessage request localOffset).1, rest := rest } := by
  refine ⟨h.stream.concat hread hdecode, ?_, ?_, h.written⟩
  · rw [List.flatMap_append, recordAll_append, ← h.manager, List.flatMap_singleton,
      ← processMessage_recordAll]
  · rw [processMessage_recordAll]
    exact h.wellFormed.recordAll (decoded_wellFormed hdecode).changes

/-- One more message is answered. -/
theorem Serving.answer (hreaders : readers.Lossless) {body rest reply : Bytes}
    {request : SyncMessage} (h : Serving readers localOffset m bytes s.rest s.answered [] s)
    (hread : readFrame be maxMessageSize s.rest = .body body rest)
    (hdecode : decodeMessage readers body = .ok request)
    (hencode : readers.wire.encode (s.manager.processMessage request localOffset).2 = .ok reply) :
    Serving readers localOffset m bytes rest (s.answered ++ [request]) []
      { manager := (s.manager.processMessage request localOffset).1
        rest := rest
        answered := s.answered ++ [request]
        written := s.written ++ frame be reply } := by
  have hprocess := h.process hread hdecode
  have hback := decode_reply hreaders h.wellFormed hencode
  rcases h.written with ⟨replies, hwritten, hreplies⟩
  refine ⟨hprocess.stream, hprocess.manager, hprocess.wellFormed, replies ++ [reply], ?_, ?_⟩
  · rw [List.append_nil] at hwritten
    rw [frames_append, frames_cons, frames_nil, List.append_nil, List.append_nil, ← hwritten]
  · rw [answerAll_concat, answerAll_manager, ← h.manager]
    exact List.rel_append hreplies (.cons hback .nil)

/-- A response was not written, or its length was and its bytes were not. -/
def CutOff (readers : Readers) (cut : Bytes) (response : SyncMessage) : Prop :=
  cut = [] ∨ ∃ reply, cut = be.write reply.length ∧ decodeMessage readers reply = .ok response

/-- One more message is processed, and its response is cut off. -/
theorem Serving.cutOff (hreaders : readers.Lossless) {body rest cut : Bytes}
    {request : SyncMessage} (h : Serving readers localOffset m bytes s.rest s.answered [] s)
    (hread : readFrame be maxMessageSize s.rest = .body body rest)
    (hdecode : decodeMessage readers body = .ok request)
    (hcut : cut = [] ∨ ∃ reply, cut = be.write reply.length ∧
      readers.wire.encode (s.manager.processMessage request localOffset).2 = .ok reply) :
    Serving readers localOffset m bytes rest (s.answered ++ [request]) cut
        { s with
          manager := (s.manager.processMessage request localOffset).1
          rest := rest
          written := s.written ++ cut } ∧
      CutOff readers cut
        ((m.answerAll localOffset s.answered).1.processMessage request localOffset).2 := by
  have hprocess := h.process hread hdecode
  rcases h.written with ⟨replies, hwritten, hreplies⟩
  rw [List.append_nil] at hwritten
  refine ⟨⟨hprocess.stream, hprocess.manager, hprocess.wellFormed, replies,
    congrArg (· ++ cut) hwritten, hreplies⟩, ?_⟩
  rw [answerAll_manager, ← h.manager]
  rcases hcut with hnone | ⟨reply, hlength, hencode⟩
  · exact Or.inl hnone
  · exact Or.inr ⟨reply, hlength, decode_reply hreaders h.wellFormed hencode⟩

/-- How the loop of an accepting side ends: with all processed messages answered and no
further message in front of what is left, or with an error behind a last message, the response
to which was cut off. -/
def Ended (readers : Readers) (localOffset : UInt64) (m : SyncManager) (left : Bytes)
    (processed : List SyncMessage) (cut : Bytes) (result : ReceiveState × Except Error Unit) :
    Prop :=
  (processed = result.1.answered ∧ cut = [] ∧ ∀ body rest msg,
      readFrame be maxMessageSize left = .body body rest →
        decodeMessage readers body ≠ .ok msg) ∨
    (result.2 ≠ .ok () ∧ ∃ last, processed = result.1.answered ++ [last] ∧
      CutOff readers cut ((m.answerAll localOffset result.1.answered).1.processMessage last
        localOffset).2)

/-- The invariant along the receiving loop, up to its end. -/
theorem Serving.run (hreaders : readers.Lossless) (write : Nat → Option String)
    (h : Serving readers localOffset m bytes s.rest s.answered [] s) :
    ∃ left processed cut, Serving readers localOffset m bytes left processed cut
        ((receiveBody readers.wire write localOffset).run s).1 ∧
      Ended readers localOffset m left processed cut
        ((receiveBody readers.wire write localOffset).run s) := by
  refine (receiveBody readers.wire write localOffset).run_invariant
    (fun s => Serving readers localOffset m bytes s.rest s.answered [] s)
    (fun result => ∃ left processed cut,
      Serving readers localOffset m bytes left processed cut result.1 ∧
        Ended readers localOffset m left processed cut result) ?_ ?_ h
  · intro s s' h hpass
    simp only [receiveBody, receivePass] at hpass
    split at hpass
    · contradiction
    · contradiction
    · contradiction
    · contradiction
    · next body rest hread =>
        split at hpass
        · contradiction
        · next request hdecode =>
            rcases answerMessage_cases readers.wire write localOffset { s with rest := rest }
              request with ⟨reply, hencode, hanswer⟩ | ⟨e, cut, hanswer, _⟩
            · rw [hanswer] at hpass
              injection hpass with hstate
              subst hstate
              exact h.answer hreaders hread hdecode hencode
            · rw [hanswer] at hpass
              contradiction
  · intro s result h hpass
    -- where no message is processed, everything is as in the state before
    have hquiet : ∀ (rest : Bytes) (res : Except Error Unit),
        (∀ body rest msg, readFrame be maxMessageSize s.rest = .body body rest →
          decodeMessage readers body ≠ .ok msg) →
        ∃ left processed cut,
          Serving readers localOffset m bytes left processed cut { s with rest := rest } ∧
            Ended readers localOffset m left processed cut ({ s with rest := rest }, res) :=
      fun rest res hnone =>
        ⟨s.rest, s.answered, [], ⟨h.stream, h.manager, h.wellFormed, h.written⟩,
          Or.inl ⟨rfl, rfl, hnone⟩⟩
    simp only [receiveBody, receivePass] at hpass
    split at hpass
    · next hread =>
        injection hpass with hresult
        exact hresult ▸ hquiet s.rest _ fun _ _ _ hbody => by simp [hread] at hbody
    · next rest hread =>
        injection hpass with hresult
        exact hresult ▸ hquiet rest _ fun _ _ _ hbody => by simp [hread] at hbody
    · next rest hread =>
        injection hpass with hresult
        exact hresult ▸ hquiet rest _ fun _ _ _ hbody => by simp [hread] at hbody
    · next rest hread =>
        injection hpass with hresult
        exact hresult ▸ hquiet rest _ fun _ _ _ hbody => by simp [hread] at hbody
    · next body rest hread =>
        split at hpass
        · next e hdecode =>
            injection hpass with hresult
            refine hresult ▸ hquiet rest _ fun body' _ msg hbody hok => ?_
            rw [hread] at hbody
            injection hbody with hsame
            rw [← hsame] at hok
            have hboth := hdecode.symm.trans hok
            contradiction
        · next request hdecode =>
            rcases answerMessage_cases readers.wire write localOffset { s with rest := rest }
              request with ⟨reply, hencode, hanswer⟩ | ⟨e, cut, hanswer, hcut⟩
            · rw [hanswer] at hpass
              contradiction
            · rw [hanswer] at hpass
              injection hpass with hresult
              subst hresult
              rcases h.cutOff hreaders hread hdecode hcut with ⟨hserving, hcutOff⟩
              exact ⟨rest, s.answered ++ [request], cut, hserving,
                Or.inr ⟨fun hok => (by cases hok), request, rfl, hcutOff⟩⟩

/-- A request is neither empty nor too large. -/
theorem request_size (offset : UInt64) (limit : Option UInt64) :
    1 ≤ (SyncMessage.request offset limit).toJson.bytes.length ∧
      (SyncMessage.request offset limit).toJson.bytes.length ≤ maxMessageSize := by
  have htype : fieldSize ("type", .str "Request") = 16 := by decide
  have hdata : (utf8 (quote "data")).length = 6 := by decide
  have hoffset : (utf8 (quote "offset")).length = 8 := by decide
  have hlimit : (utf8 (quote "limit")).length = 7 := by decide
  have hnum := size_num_le offset.toNat_lt
  have hopt : (optionValue (limit.map fun limit => .num limit.toNat)).size ≤ 80 := by
    cases limit with
    | none => decide
    | some limit => exact size_num_le limit.toNat_lt
  have hsize : (SyncMessage.request offset limit).toJson.size =
      46 + (Value.num offset.toNat).size +
        (optionValue (limit.map fun limit => .num limit.toNat)).size := by
    rw [SyncMessage.toJson, tagged, size_obj]
    simp only [List.map_cons, List.map_nil, List.sum_cons, List.sum_nil, List.length_cons,
      List.length_nil, htype]
    rw [fieldSize, size_obj]
    simp only [List.map_cons, List.map_nil, List.sum_cons, List.sum_nil, List.length_cons,
      List.length_nil, fieldSize, hdata, hoffset, hlimit]
    omega
  rw [Value.size] at hsize
  simp only [maxMessageSize]
  omega

end IrohSync
