import Mathlib.Data.List.Forall2
import Mathlib.Data.List.Perm.Basic
import IrohSync.Lib.Machine
import IrohSync.Sync.Network
import IrohSync.Sync.RequestArithmetic
import IrohSync.Sync.SessionRun

/-!
# Connections served at once

A node accepts any number of connections and handles each of them in a task of its own, while
threads of its own record changes and sessions with servers raise its offset.  All of them
share one manager, each atomic operation on which is a step here: to load the offset, to take
the next one, to read the log, and to push a change.

Main results:

- Theorem {lit}`turns_pass`: without others the steps of a handler are the passes of the loop
  over its stream.
- Theorem {lit}`Serves.turn`: what a step of a handler keeps for its connection.
- Theorem {lit}`Shared.next`: what any step keeps for all of them.
- Theorem {lit}`SharedNode.ends`: a handler waits for no other.
- Theorem {lit}`served_at_once`: no change is lost, repeated or invented on the way from the
  connections to the log, and what is answered are pieces of the log.
-/

namespace IrohSync

open BoundedLog FileIo Framing Machine

/-! ## The shared manager -/

/-- Take the next offset. -/
def SyncManager.fetchOffset (m : SyncManager) : SyncManager :=
  { m with offset := m.offset + 1 }

/-- Push a change. -/
def SyncManager.pushChange (m : SyncManager) (change : Change) : SyncManager :=
  { m with changes := push m.maxChanges.toNat m.changes change }

/-- Raise the offset to the identifier of a remote change. -/
def SyncManager.raiseOffset (m : SyncManager) (change : Change) : SyncManager :=
  { m with offset := max m.offset change.seq }

/-- Recording a change is to take an offset and to push the change. -/
theorem recordChange_eq (m : SyncManager) (change : Change) :
    (m.recordChange change).1 = m.fetchOffset.pushChange change :=
  rfl

/-! ## Handlers -/

/-- Where the handler of a connection stands.  It is about to load the offset when it starts,
to read a message, to read the log, to load the offset behind a page, to take an offset for
the next change of a batch, to push that change, or to send a response; or its loop ended. -/
inductive HandlerStage where
  | start
  | read
  | gather (offset : UInt64) (limit : Option UInt64)
  | conclude (newOffset : UInt64) (changes : List Change)
  | record (batch : ChangeBatch) (left : List Change)
  | push (batch : ChangeBatch) (change : Change) (left : List Change)
  | send (response : SyncMessage)
  | ended (result : Except Error Unit)

/-- The handler of a connection: the bytes behind the messages that it has read, these
messages, the responses that it has sent, and what its writes that succeeded have written.  Its
peer state, written before the first step and behind the loop, has no part in these. -/
structure Handler where
  localOffset : UInt64
  rest : Bytes
  stage : HandlerStage
  received : List SyncMessage
  sent : List SyncMessage
  written : Bytes

/-- A handler before its first step. -/
def Handler.new (bytes : Bytes) : Handler where
  localOffset := 0
  rest := bytes
  stage := .start
  received := []
  sent := []
  written := []

/-- Where processing a message begins. -/
def SyncMessage.enter (localOffset : UInt64) : SyncMessage → HandlerStage
  | .request offset limit => .gather offset limit
  | .response batch => .record batch batch.changes
  | .ack _ => .send (.ack localOffset)
  | .ping => .send .pong
  | .pong => .send .ping

/-- Read and decode a message, or end the loop. -/
def Handler.readMessage (wire : Wire) (h : Handler) : Handler :=
  match readFrame be maxMessageSize h.rest with
  | .short => { h with stage := .ended (.ok ()) }
  | .marker _ => { h with stage := .ended (.ok ()) }
  | .oversized _ => { h with stage := .ended (.error oversizedError) }
  | .cut _ => { h with stage := .ended (.ok ()) }
  | .body body rest =>
      match wire.decode body with
      | .error _ => { h with stage := .ended (.ok ()) }
      | .ok msg =>
          { h with
            rest := rest
            stage := msg.enter h.localOffset
            received := h.received ++ [msg] }

/-- The errors of the two writes of a response, of its length and of its bytes. -/
structure Writes where
  length : Option String
  body : Option String

/-- Both writes succeed. -/
def Writes.succeed : Writes where
  length := none
  body := none

/-- Encode a response and write its length and its bytes. -/
def Handler.sendResponse (wire : Wire) (h : Handler) (response : SyncMessage) (writes : Writes) :
    Handler :=
  match wire.encode response with
  | .error e => { h with stage := .ended (.error (.encoding e)) }
  | .ok encoded =>
      match writes.length with
      | some e => { h with stage := .ended (.error (.connection e)) }
      | none =>
          match writes.body with
          | some e =>
              { h with
                stage := .ended (.error (.connection e))
                written := h.written ++ be.write encoded.length }
          | none =>
              { h with
                stage := .read
                sent := h.sent ++ [response]
                written := h.written ++ frame be encoded }

/-- The next step of a handler, with the manager behind it. -/
def Handler.turn (wire : Wire) (m : SyncManager) (h : Handler) (writes : Writes) :
    SyncManager × Handler :=
  match h.stage with
  | .start => (m, { h with localOffset := m.offset, stage := .read })
  | .read => (m, h.readMessage wire)
  | .gather offset limit =>
      let changes := truncate (m.getChangesSince offset) limit
      let newOffset := offset + UInt64.ofNat changes.length
      -- the offset is loaded again only behind changes
      if changes.isEmpty then (m, { h with stage := .send (.response ⟨newOffset, changes, true⟩) })
      else (m, { h with stage := .conclude newOffset changes })
  | .conclude newOffset changes =>
      let isFinal := decide (m.offset ≤ newOffset)
      (m, { h with stage := .send (.response ⟨newOffset, changes, isFinal⟩) })
  | .record batch [] => (m, { h with stage := .send (.ack batch.offset) })
  | .record batch (change :: left) => (m.fetchOffset, { h with stage := .push batch change left })
  | .push batch change left => (m.pushChange change, { h with stage := .record batch left })
  | .send response => (m, h.sendResponse wire response writes)
  | .ended _ => (m, h)

/-- The change that the next step of a handler pushes. -/
def HandlerStage.pushes : HandlerStage → List Change
  | .push _ change _ => [change]
  | _ => []

/-- The changes of the message that is processed that were not pushed yet. -/
def HandlerStage.unpushed : HandlerStage → List Change
  | .record _ left => left
  | .push _ change left => change :: left
  | _ => []

/-! ## A handler alone -/

/-- Steps of a handler without other ones in between, with writes that succeed. -/
def Handler.turns (wire : Wire) : Nat → SyncManager × Handler → SyncManager × Handler
  | 0, s => s
  | n + 1, s => turns wire n (s.2.turn wire s.1 .succeed)

theorem turns_add (wire : Wire) (n k : Nat) (s : SyncManager × Handler) :
    Handler.turns wire (n + k) s = Handler.turns wire k (Handler.turns wire n s) := by
  induction n generalizing s with
  | zero => rw [Nat.zero_add, Handler.turns]
  | succ n ih => rw [Nat.succ_add, Handler.turns, ih, Handler.turns]

/-- Two steps for each change record a batch. -/
theorem turns_record (wire : Wire) (m : SyncManager) (h : Handler) (batch : ChangeBatch)
    (left : List Change) :
    Handler.turns wire (2 * left.length) (m, { h with stage := .record batch left }) =
      (m.recordAll left, { h with stage := .record batch [] }) := by
  induction left generalizing m with
  | nil => rfl
  | cons change left ih =>
      rw [List.length_cons, Nat.mul_succ, Nat.add_comm, turns_add, recordAll_cons,
        recordChange_eq, ← ih]
      rfl

/-- The steps behind a message are what it is to process it. -/
theorem turns_process (wire : Wire) (m : SyncManager) (h : Handler) (msg : SyncMessage) :
    ∃ n, Handler.turns wire n (m, { h with stage := msg.enter h.localOffset }) =
      ((m.processMessage msg h.localOffset).1,
        { h with stage := .send (m.processMessage msg h.localOffset).2 }) := by
  cases msg with
  | request offset limit =>
      cases hempty : (truncate (m.getChangesSince offset) limit).isEmpty with
      | true =>
          refine ⟨1, ?_⟩
          simp [Handler.turns, Handler.turn, SyncMessage.enter, SyncManager.processMessage,
            SyncManager.answer, hempty]
      | false =>
          refine ⟨2, ?_⟩
          simp [Handler.turns, Handler.turn, SyncMessage.enter, SyncManager.processMessage,
            SyncManager.answer, hempty]
  | response batch =>
      refine ⟨2 * batch.changes.length + 1, ?_⟩
      rw [turns_add, SyncMessage.enter, turns_record]
      rfl
  | ack offset => exact ⟨0, rfl⟩
  | ping => exact ⟨0, rfl⟩
  | pong => exact ⟨0, rfl⟩

/-- A pass of the loop that goes on is a number of steps. -/
theorem turns_pass {wire : Wire} {write : Nat → Option String} {r r' : ReceiveState}
    {h : Handler} (hstage : h.stage = .read) (hrest : r.rest = h.rest)
    (hanswered : r.answered = h.received) (hwritten : r.written = h.written)
    (hpass : receivePass wire write h.localOffset r = .next r') :
    ∃ n response, Handler.turns wire n (r.manager, h) =
      (r'.manager,
        { h with
          rest := r'.rest
          received := r'.answered
          sent := h.sent ++ [response]
          written := r'.written }) := by
  unfold receivePass at hpass
  split at hpass
  · contradiction
  · contradiction
  · contradiction
  · contradiction
  · next body rest hread =>
      split at hpass
      · contradiction
      · next request hdecode =>
          unfold answerMessage at hpass
          simp only at hpass
          split at hpass
          · contradiction
          · next encoded hencode =>
              split at hpass
              · contradiction
              · split at hpass
                · contradiction
                · injection hpass with hstate
                  subst hstate
                  -- the handler behind the message
                  have hfirst : h.turn wire r.manager .succeed = (r.manager, { h with
                      rest := rest
                      stage := request.enter h.localOffset
                      received := h.received ++ [request] }) := by
                    rw [hrest] at hread
                    simp only [Handler.turn, hstage, Handler.readMessage, hread, hdecode]
                  rcases turns_process wire r.manager
                    { h with rest := rest, received := h.received ++ [request] } request with
                    ⟨n, hprocess⟩
                  refine ⟨1 + (n + 1),
                    (r.manager.processMessage request h.localOffset).2, ?_⟩
                  rw [turns_add, turns_add]
                  simp only [Handler.turns, hfirst]
                  rw [hprocess]
                  simp only [Handler.turn, Handler.sendResponse, Writes.succeed, hencode, hanswered,
                    hwritten, hstage]

/-! ## The node -/

/-- The manager of a node, the handlers of its connections, and the changes that other threads
record, for which an offset was taken. -/
structure SharedNode (κ : Type) where
  manager : SyncManager
  handlers : κ → Handler
  waiting : List Change

/-- A step of a handler or of another thread; a change that is pushed is named by its place. -/
inductive NodeEvent (κ : Type) where
  | turn (k : κ) (writes : Writes)
  | fetch (change : Change)
  | push (i : Nat)
  | raise (change : Change)

/-- The change that an event begins to record. -/
def NodeEvent.recorded {κ : Type} : NodeEvent κ → List Change
  | .fetch change => [change]
  | .turn _ _ => []
  | .push _ => []
  | .raise _ => []

variable {κ : Type} [DecidableEq κ]

/-- A node with connections over which these bytes arrive. -/
def SharedNode.start (m : SyncManager) (bytes : κ → Bytes) : SharedNode κ where
  manager := m
  handlers := fun k => .new (bytes k)
  waiting := []

/-- The state after a step. -/
def SharedNode.next (wire : Wire) (s : SharedNode κ) : NodeEvent κ → SharedNode κ
  | .turn k writes =>
      let turned := (s.handlers k).turn wire s.manager writes
      { s with manager := turned.1, handlers := Function.update s.handlers k turned.2 }
  | .fetch change =>
      { s with manager := s.manager.fetchOffset, waiting := s.waiting ++ [change] }
  | .push i =>
      match s.waiting[i]? with
      | some change =>
          { s with manager := s.manager.pushChange change, waiting := s.waiting.eraseIdx i }
      | none => s
  | .raise change => { s with manager := s.manager.raiseOffset change }

/-- The change that a step pushes, with the connection that it came over. -/
def SharedNode.pushes (s : SharedNode κ) : NodeEvent κ → List (Option κ × Change)
  | .turn k _ => (s.handlers k).stage.pushes.map fun change => (some k, change)
  | .push i => s.waiting[i]?.toList.map fun change => (none, change)
  | .fetch _ => []
  | .raise _ => []

/-- The interleavings of the steps of a node. -/
def sharedNode (wire : Wire) :
    Machine (SharedNode κ) (NodeEvent κ) (List (Option κ × Change)) where
  next := SharedNode.next wire
  answer := SharedNode.pushes

/-- What was pushed during a run, in order. -/
def pushedIn (wire : Wire) (s : SharedNode κ) (events : List (NodeEvent κ)) :
    List (Option κ × Change) :=
  ((sharedNode wire).answers s events).flatten

/-! ## What a connection is promised -/

/-- What may be sent in response to a message: to a request a piece of everything that was ever
in the log, no longer than the limit; a response is acknowledged. -/
def MayAnswer (all : List Change) (localOffset : UInt64) : SyncMessage → SyncMessage → Prop
  | .request offset limit, .response batch => batch.changes <:+: all ∧
      (∀ l ∈ limit, batch.changes.length ≤ l.toNat) ∧
      batch.offset.toNat = offset.toNat + batch.changes.length ∧
      (batch.changes = [] → batch.isFinal = true)
  | .request _ _, _ => False
  | .response batch, response => response = .ack batch.offset
  | .ack _, response => response = .ack localOffset
  | .ping, response => response = .pong
  | .pong, response => response = .ping

/-- What a handler is about to do fits the messages that it has read and not answered. -/
def Handler.Busy (wire : Wire) (all : List Change) (h : Handler) (current : List SyncMessage) :
    Prop :=
  match h.stage with
  | .start => h.received = [] ∧ current = []
  | .read => current = []
  | .gather offset limit => current = [.request offset limit]
  | .conclude newOffset changes => ∃ offset limit, current = [.request offset limit] ∧
      changes <:+: all ∧ (∀ l ∈ limit, changes.length ≤ l.toNat) ∧
      newOffset.toNat = offset.toNat + changes.length ∧ changes ≠ []
  | .record batch _ => current = [.response batch]
  | .push batch _ _ => current = [.response batch]
  | .send response => ∃ msg, current = [msg] ∧ MayAnswer all h.localOffset msg response
  | .ended (.ok _) => current = [] ∧ ∀ body rest msg,
      readFrame be maxMessageSize h.rest = .body body rest → wire.decode body ≠ .ok msg
  | .ended (.error _) => current.length ≤ 1

/-- A handler has written the frames of its responses.  Behind them it has written nothing, or
the length of one more response when the write of its bytes has ended the loop. -/
def Handler.Wrote (wire : Wire) (h : Handler) : Prop :=
  ∃ replies cut, h.written = frames be replies ++ cut ∧
    List.Forall₂ (fun response reply => wire.encode response = .ok reply) h.sent replies ∧
    (cut = [] ∨ (∃ e, h.stage = .ended (.error e)) ∧
      ∃ reply : Bytes, cut = be.write reply.length)

/-- What holds of a handler: it has read messages from the front of the bytes; it has pushed
what they carry, but for a rest of the last one, and nothing else; it has answered them in order,
but for the last one; and it has written the responses. -/
structure Serves (wire : Wire) (bytes : Bytes) (all mine : List Change) (h : Handler) : Prop where
  stream : DecodedFront wire bytes h.rest h.received
  brought : mine ++ h.stage.unpushed = h.received.flatMap SyncMessage.changes
  answered : ∃ done current, h.received = done ++ current ∧
    List.Forall₂ (MayAnswer all h.localOffset) done h.sent ∧ h.Busy wire all current
  written : h.Wrote wire

variable {wire : Wire} {bytes : Bytes} {all all' mine : List Change} {handler : Handler}

theorem MayAnswer.mono {localOffset : UInt64} {msg response : SyncMessage}
    (h : MayAnswer all localOffset msg response) (hgrown : all <+: all') :
    MayAnswer all' localOffset msg response := by
  cases msg with
  | request offset limit =>
      cases response with
      | response batch => exact ⟨h.1.trans hgrown.isInfix, h.2⟩
      | request => exact h
      | ack => exact h
      | ping => exact h
      | pong => exact h
  | response batch => exact h
  | ack offset => exact h
  | ping => exact h
  | pong => exact h

theorem Handler.Busy.mono {current : List SyncMessage} (h : handler.Busy wire all current)
    (hgrown : all <+: all') : handler.Busy wire all' current := by
  unfold Handler.Busy at h ⊢
  split at h
  · exact h
  · exact h
  · exact h
  · rcases h with ⟨offset, limit, hcurrent, hpiece, hrest⟩
    exact ⟨offset, limit, hcurrent, hpiece.trans hgrown.isInfix, hrest⟩
  · exact h
  · exact h
  · rcases h with ⟨msg, hcurrent, hanswer⟩
    exact ⟨msg, hcurrent, hanswer.mono hgrown⟩
  · exact h
  · exact h

/-- What holds of a handler still holds when others have pushed changes. -/
theorem Serves.mono (h : Serves wire bytes all mine handler) (hgrown : all <+: all') :
    Serves wire bytes all' mine handler := by
  rcases h.answered with ⟨done, current, hreceived, hdone, hbusy⟩
  exact ⟨h.stream, h.brought, ⟨done, current, hreceived,
    hdone.imp fun _ _ hanswer => hanswer.mono hgrown, hbusy.mono hgrown⟩, h.written⟩

/-- Until its loop ends a handler has written whole responses. -/
theorem Handler.Wrote.frames (h : handler.Wrote wire)
    (hlive : ∀ result, handler.stage ≠ .ended result) :
    ∃ replies, handler.written = Framing.frames be replies ∧
      List.Forall₂ (fun response reply => wire.encode response = .ok reply) handler.sent
        replies := by
  rcases h with ⟨replies, cut, hwritten, hreplies, rfl | ⟨⟨e, he⟩, _⟩⟩
  · exact ⟨replies, hwritten.trans (List.append_nil _), hreplies⟩
  · exact absurd he (hlive _)

/-- A step that writes nothing, where the loop goes on before it. -/
theorem Handler.Wrote.step (h : handler.Wrote wire)
    (hlive : ∀ result, handler.stage ≠ .ended result) {handler' : Handler}
    (hwritten : handler'.written = handler.written) (hsent : handler'.sent = handler.sent) :
    handler'.Wrote wire := by
  rcases h.frames hlive with ⟨replies, hframes, hreplies⟩
  exact ⟨replies, [], hwritten.trans (hframes.trans (List.append_nil _).symm), hsent ▸ hreplies,
    Or.inl rfl⟩

/-! ## One step of a handler -/

/-- A step that pushes changes, if any, and does nothing else to its connection. -/
theorem Serves.setStage (h : Serves wire bytes all mine handler) {stage : HandlerStage}
    {pushed : List Change} (hlive : ∀ result, handler.stage ≠ .ended result)
    (hunpushed : handler.stage.unpushed = pushed ++ stage.unpushed)
    (hbusy : ∀ current, handler.Busy wire (all ++ pushed) current →
      Handler.Busy wire (all ++ pushed) { handler with stage := stage } current) :
    Serves wire bytes (all ++ pushed) (mine ++ pushed) { handler with stage := stage } := by
  have hmore := h.mono (List.prefix_append all pushed)
  rcases hmore.answered with ⟨done, current, hreceived, hdone, hcurrent⟩
  refine ⟨h.stream, ?_, ⟨done, current, hreceived, hdone, hbusy current hcurrent⟩,
    h.written.step hlive rfl rfl⟩
  rw [← h.brought, hunpushed, List.append_assoc]

/-- A message is read, or the loop ends. -/
theorem Serves.readMessage (h : Serves wire bytes all mine handler)
    (hstage : handler.stage = .read) : Serves wire bytes all mine (handler.readMessage wire) := by
  rcases h.answered with ⟨done, current, hreceived, hdone, hbusy⟩
  obtain rfl : current = [] := by simpa [Handler.Busy, hstage] using hbusy
  have hbrought := h.brought
  simp only [hstage, HandlerStage.unpushed, List.append_nil] at hbrought
  have hlive : ∀ result, handler.stage ≠ .ended result := by simp [hstage]
  -- where no message is read nothing changes but the stage
  have hends : ∀ result : Except Error Unit, (result = .ok () → ∀ body rest msg,
      readFrame be maxMessageSize handler.rest = .body body rest → wire.decode body ≠ .ok msg) →
      Serves wire bytes all mine { handler with stage := .ended result } := by
    intro result hnone
    refine ⟨h.stream, by simpa [HandlerStage.unpushed] using hbrought,
      ⟨done, [], hreceived, hdone, ?_⟩, h.written.step hlive rfl rfl⟩
    cases result with
    | ok _ => exact ⟨rfl, hnone rfl⟩
    | error _ => exact Nat.zero_le 1
  unfold Handler.readMessage
  split
  · next hread => exact hends _ fun _ _ _ _ hbody => by simp [hread] at hbody
  · next hread => exact hends _ fun _ _ _ _ hbody => by simp [hread] at hbody
  · next hread => exact hends _ fun hok => (nomatch hok)
  · next hread => exact hends _ fun _ _ _ _ hbody => by simp [hread] at hbody
  · next body rest hread =>
      split
      · next e hdecode =>
          refine hends _ fun _ body' _ msg hbody hok => ?_
          rw [hread] at hbody
          injection hbody with hsame
          rw [← hsame] at hok
          exact nomatch hdecode.symm.trans hok
      · next msg hdecode =>
          refine ⟨h.stream.concat hread hdecode, ?_, ⟨done, [msg], by rw [hreceived,
            List.append_nil], hdone, ?_⟩, h.written.step hlive rfl rfl⟩
          · rw [List.flatMap_append, List.flatMap_singleton, ← hbrought]
            cases msg <;> rfl
          · cases msg with
            | request offset limit => rfl
            | response batch => rfl
            | ack offset => exact ⟨.ack offset, rfl, rfl⟩
            | ping => exact ⟨.ping, rfl, rfl⟩
            | pong => exact ⟨.pong, rfl, rfl⟩

/-- A response is sent, or the loop ends. -/
theorem Serves.sendResponse (h : Serves wire bytes all mine handler) {response : SyncMessage}
    (hstage : handler.stage = .send response) (writes : Writes) :
    Serves wire bytes all mine (handler.sendResponse wire response writes) := by
  rcases h.answered with ⟨done, current, hreceived, hdone, hbusy⟩
  rcases (by simpa [Handler.Busy, hstage] using hbusy : ∃ msg, current = [msg] ∧
    MayAnswer all handler.localOffset msg response) with ⟨msg, rfl, hanswer⟩
  have hbrought := h.brought
  simp only [hstage, HandlerStage.unpushed, List.append_nil] at hbrought
  rcases h.written.frames (by simp [hstage]) with ⟨replies, hwritten, hreplies⟩
  have hfails : ∀ (e : Error) (cut : Bytes),
      (cut = [] ∨ ∃ reply : Bytes, cut = be.write reply.length) →
      Serves wire bytes all mine
        { handler with
          stage := .ended (.error e)
          written := handler.written ++ cut } := fun e cut hcut =>
    ⟨h.stream, by simpa [HandlerStage.unpushed] using hbrought,
      ⟨done, [msg], hreceived, hdone, Nat.le_refl 1⟩,
      replies, cut, congrArg (· ++ cut) hwritten, hreplies,
      hcut.imp_right fun hlength => ⟨⟨e, rfl⟩, hlength⟩⟩
  unfold Handler.sendResponse
  split
  · next e hencode => simpa only [List.append_nil] using hfails _ [] (Or.inl rfl)
  · next encoded hencode =>
      split
      · simpa only [List.append_nil] using hfails _ [] (Or.inl rfl)
      · split
        · exact hfails _ _ (Or.inr ⟨encoded, rfl⟩)
        · refine ⟨h.stream, by simpa [HandlerStage.unpushed] using hbrought,
            ⟨done ++ [msg], [], by rw [hreceived, List.append_nil],
              List.rel_append hdone (.cons hanswer .nil), rfl⟩,
            ⟨replies ++ [encoded], [], ?_, List.rel_append hreplies (.cons hencode .nil),
              Or.inl rfl⟩⟩
          rw [frames_append, frames_cons, frames_nil, List.append_nil, List.append_nil,
            ← hwritten]

/-- A page is a piece of what was ever in the log, within the limit. -/
theorem page_spec {m : SyncManager} (hlog : m.changes <:+ all) (offset : UInt64)
    (limit : Option UInt64) :
    truncate (m.getChangesSince offset) limit <:+: all ∧
      (∀ l ∈ limit, (truncate (m.getChangesSince offset) limit).length ≤ l.toNat) ∧
      (offset + UInt64.ofNat (truncate (m.getChangesSince offset) limit).length).toNat =
        offset.toNat + (truncate (m.getChangesSince offset) limit).length := by
  have hread : m.getChangesSince offset <:+ m.changes := by
    rw [getChangesSince_eq]
    exact List.drop_suffix _ _
  refine ⟨?_, fun l hl => ?_, answer_offset m offset limit⟩
  · have hpage := truncate_prefix (m.getChangesSince offset) limit
    exact hpage.isInfix.trans (hread.trans hlog).isInfix
  · obtain rfl : limit = some l := hl
    exact List.length_take_le _ _

/-- A step of a handler. -/
theorem Serves.turn (h : Serves wire bytes all mine handler) {m : SyncManager}
    (hlog : m.changes <:+ all) (writes : Writes) :
    Serves wire bytes (all ++ handler.stage.pushes) (mine ++ handler.stage.pushes)
      (handler.turn wire m writes).2 := by
  unfold Handler.turn
  cases hstage : handler.stage with
  | start =>
      rcases h.answered with ⟨done, current, hreceived, hdone, hbusy⟩
      simp only [Handler.Busy, hstage] at hbusy
      -- nothing was answered with another offset
      rw [hbusy.1] at hreceived
      obtain ⟨rfl, rfl⟩ := List.append_eq_nil_iff.mp hreceived.symm
      have hbrought := h.brought
      simp only [hstage, HandlerStage.pushes, HandlerStage.unpushed, List.append_nil] at hbrought ⊢
      have hsent : handler.sent = [] := List.forall₂_nil_left_iff.mp hdone
      exact ⟨h.stream, by simpa [HandlerStage.unpushed] using hbrought,
        ⟨[], [], hbusy.1, List.forall₂_nil_left_iff.mpr hsent, rfl⟩,
        h.written.step (by simp [hstage]) rfl rfl⟩
  | read => simpa only [HandlerStage.pushes, List.append_nil] using h.readMessage hstage
  | gather offset limit =>
      rcases page_spec hlog offset limit with ⟨hpiece, hlimit, hoffset⟩
      have hpiece' := hpiece.trans (List.prefix_append all []).isInfix
      dsimp only
      split
      · refine h.setStage (by simp [hstage]) (by rw [hstage]; rfl) fun current hbusy => ?_
        simp only [Handler.Busy, hstage] at hbusy
        exact ⟨_, hbusy, hpiece', hlimit, hoffset, fun _ => rfl⟩
      · next hsome =>
          refine h.setStage (by simp [hstage]) (by rw [hstage]; rfl) fun current hbusy => ?_
          simp only [Handler.Busy, hstage] at hbusy
          exact ⟨offset, limit, hbusy, hpiece', hlimit, hoffset,
            fun hnil => hsome (List.isEmpty_iff.mpr hnil)⟩
  | conclude newOffset changes =>
      refine h.setStage (by simp [hstage]) (by rw [hstage]; rfl) fun current hbusy => ?_
      simp only [Handler.Busy, hstage] at hbusy
      rcases hbusy with ⟨offset, limit, hcurrent, hpiece, hlimit, hoffset, hsome⟩
      exact ⟨_, hcurrent, hpiece, hlimit, hoffset, fun hnil => absurd hnil hsome⟩
  | record batch left =>
      cases left with
      | nil =>
          refine h.setStage (by simp [hstage]) (by rw [hstage]; rfl) fun current hbusy => ?_
          simp only [Handler.Busy, hstage] at hbusy
          exact ⟨_, hbusy, rfl⟩
      | cons change left =>
          refine h.setStage (by simp [hstage]) (by rw [hstage]; rfl) fun current hbusy => ?_
          simpa only [Handler.Busy, hstage] using hbusy
  | push batch change left =>
      refine h.setStage (by simp [hstage]) (by rw [hstage]; rfl) fun current hbusy => ?_
      simpa only [Handler.Busy, hstage] using hbusy
  | send response =>
      simpa only [HandlerStage.pushes, List.append_nil] using h.sendResponse hstage writes
  | ended result => simpa only [HandlerStage.pushes, List.append_nil] using h

/-- A step of a handler does with the log what it pushes. -/
theorem turn_manager (wire : Wire) (m : SyncManager) (handler : Handler) (writes : Writes) :
    (handler.turn wire m writes).1.changes =
        pushAll m.maxChanges.toNat m.changes handler.stage.pushes ∧
      (handler.turn wire m writes).1.maxChanges = m.maxChanges := by
  unfold Handler.turn
  cases handler.stage with
  | gather offset limit =>
      dsimp only
      split
      · exact ⟨rfl, rfl⟩
      · exact ⟨rfl, rfl⟩
  | record batch left =>
      cases left with
      | nil => exact ⟨rfl, rfl⟩
      | cons change left => exact ⟨rfl, rfl⟩
  | _ => exact ⟨rfl, rfl⟩

/-! ## One step of the node -/

/-- What holds of a node after some changes were pushed and some begun by other threads: the
log was made by the former; the latter were pushed or wait, each once; and each handler has
pushed what came over its connection. -/
structure Shared (wire : Wire) (m : SyncManager) (bytes : κ → Bytes)
    (pushed : List (Option κ × Change)) (recorded : List Change) (s : SharedNode κ) : Prop where
  log : s.manager.changes = pushAll m.maxChanges.toNat m.changes (pushed.map Prod.snd)
  maxChanges : s.manager.maxChanges = m.maxChanges
  own : (broughtTo none pushed ++ s.waiting).Perm recorded
  serves : ∀ k, Serves wire (bytes k) (m.changes ++ pushed.map Prod.snd)
    (broughtTo (some k) pushed) (s.handlers k)

variable {m : SyncManager} {bytes : κ → Bytes} {pushed : List (Option κ × Change)}
  {recorded : List Change} {s : SharedNode κ}

theorem broughtTo_append (peer : κ) (front back : List (κ × Change)) :
    broughtTo peer (front ++ back) = broughtTo peer front ++ broughtTo peer back :=
  List.filterMap_append

/-- The log holds the last of the changes that were ever in it. -/
theorem Shared.suffix (h : Shared wire m bytes pushed recorded s) :
    s.manager.changes <:+ m.changes ++ pushed.map Prod.snd := by
  rw [h.log, pushAll_eq_drop]
  exact List.drop_suffix _ _

omit [DecidableEq κ] in
/-- Changes with where they came from. -/
theorem map_snd_tagged (source : Option κ) (cs : List Change) :
    (cs.map fun change => (source, change)).map Prod.snd = cs := by
  rw [List.map_map]
  exact List.map_id cs

/-- A connection over which nothing came in a step. -/
theorem Shared.other (h : Shared wire m bytes pushed recorded s) {source : Option κ} {k : κ}
    (hne : source ≠ some k) (cs : List Change) :
    Serves wire (bytes k)
      (m.changes ++ (pushed ++ cs.map fun change => (source, change)).map Prod.snd)
      (broughtTo (some k) (pushed ++ cs.map fun change => (source, change))) (s.handlers k) := by
  rw [broughtTo_append, broughtTo_of_ne hne, List.append_nil, List.map_append, ← List.append_assoc]
  exact (h.serves k).mono (List.prefix_append _ _)

/-- One step. -/
theorem Shared.next (h : Shared wire m bytes pushed recorded s) (event : NodeEvent κ) :
    Shared wire m bytes (pushed ++ s.pushes event) (recorded ++ event.recorded)
      (s.next wire event) := by
  cases event with
  | turn k writes =>
      have hmanager := turn_manager wire s.manager (s.handlers k) writes
      refine ⟨?_, hmanager.2.trans h.maxChanges, ?_, fun j => ?_⟩
      · rw [List.map_append, pushAll_append, ← h.log, ← h.maxChanges, SharedNode.pushes,
          map_snd_tagged]
        exact hmanager.1
      · rw [broughtTo_append, SharedNode.pushes, broughtTo_of_ne (Option.some_ne_none k),
          List.append_nil, NodeEvent.recorded, List.append_nil]
        exact h.own
      · by_cases hj : j = k
        · subst j
          have hturn := (h.serves k).turn h.suffix writes
          rw [SharedNode.pushes, broughtTo_append, broughtTo_self, List.map_append, map_snd_tagged,
            ← List.append_assoc]
          simpa only [SharedNode.next, Function.update_self] using hturn
        · have hne : some k ≠ some j := fun hsame => hj (Option.some.inj hsame).symm
          have hother := h.other hne (s.handlers k).stage.pushes
          simpa only [SharedNode.next, SharedNode.pushes, Function.update_of_ne hj] using hother
  | fetch change =>
      refine ⟨?_, h.maxChanges, ?_, fun j => ?_⟩
      · rw [SharedNode.pushes, List.append_nil]
        exact h.log
      · rw [SharedNode.pushes, List.append_nil, NodeEvent.recorded, SharedNode.next,
          ← List.append_assoc]
        exact h.own.append_right [change]
      · rw [SharedNode.pushes, List.append_nil]
        exact h.serves j
  | push i =>
      cases hi : s.waiting[i]? with
      | none =>
          have hnext : s.next wire (.push i) = s := by simp only [SharedNode.next, hi]
          have hpushes : s.pushes (.push i) = [] := by simp only [SharedNode.pushes, hi]; rfl
          rw [hnext, hpushes, List.append_nil, NodeEvent.recorded, List.append_nil]
          exact h
      | some change =>
          have hnext : s.next wire (.push i) =
              { s with
                manager := s.manager.pushChange change
                waiting := s.waiting.eraseIdx i } := by simp only [SharedNode.next, hi]
          have hpushes : s.pushes (.push i) = [change].map fun change => (none, change) := by
            simp only [SharedNode.pushes, hi]
            rfl
          rw [hnext, hpushes, NodeEvent.recorded, List.append_nil]
          refine ⟨?_, h.maxChanges, ?_, fun j => h.other (Option.some_ne_none j).symm [change]⟩
          · rw [List.map_append, pushAll_append, ← h.log, ← h.maxChanges, map_snd_tagged]
            rfl
          · -- the change has left the waiting ones
            rw [broughtTo_append, broughtTo_self, List.append_assoc]
            refine (List.Perm.append_left _ ?_).trans h.own
            rcases List.getElem?_eq_some_iff.mp hi with ⟨hlt, rfl⟩
            exact List.getElem_cons_eraseIdx_perm hlt
  | raise change =>
      refine ⟨?_, h.maxChanges, ?_, fun j => ?_⟩
      · rw [SharedNode.pushes, List.append_nil]
        exact h.log
      · rw [SharedNode.pushes, List.append_nil, NodeEvent.recorded, List.append_nil]
        exact h.own
      · rw [SharedNode.pushes, List.append_nil]
        exact h.serves j

theorem Shared.run (h : Shared wire m bytes pushed recorded s) (events : List (NodeEvent κ)) :
    Shared wire m bytes (pushed ++ pushedIn wire s events)
      (recorded ++ events.flatMap NodeEvent.recorded) ((sharedNode wire).run s events) := by
  induction events generalizing s pushed recorded with
  | nil => simpa [pushedIn] using h
  | cons event events ih =>
      have hpushed : pushedIn wire s (event :: events) =
          s.pushes event ++ pushedIn wire (s.next wire event) events := rfl
      rw [hpushed, List.flatMap_cons, ← List.append_assoc, ← List.append_assoc]
      exact ih (h.next event)

/-! ## No handler waits for another one -/

/-- How far a handler is from the next message that it reads. -/
def HandlerStage.distance : HandlerStage → Nat
  | .start => 2
  | .read => 1
  | .gather _ _ => 4
  | .conclude _ _ => 3
  | .record _ left => 3 + 2 * left.length
  | .push _ _ left => 4 + 2 * left.length
  | .send _ => 2
  | .ended _ => 0

/-- A step of a handler ends the loop, reads a message or comes closer to that. -/
theorem turn_progress (wire : Wire) (m : SyncManager) (handler : Handler) (writes : Writes) :
    (∃ result, (handler.turn wire m writes).2.stage = .ended result) ∨
      (handler.turn wire m writes).2.rest.length < handler.rest.length ∨
      (handler.turn wire m writes).2.rest.length = handler.rest.length ∧
        (handler.turn wire m writes).2.stage.distance < handler.stage.distance := by
  unfold Handler.turn
  cases hstage : handler.stage with
  | start => exact Or.inr (Or.inr ⟨rfl, Nat.lt_succ_self 1⟩)
  | read =>
      dsimp only
      unfold Handler.readMessage
      split
      · exact Or.inl ⟨_, rfl⟩
      · exact Or.inl ⟨_, rfl⟩
      · exact Or.inl ⟨_, rfl⟩
      · exact Or.inl ⟨_, rfl⟩
      · next hread =>
          split
          · exact Or.inl ⟨_, rfl⟩
          · exact Or.inr (Or.inl (readFrame_body_lt hread))
  | gather offset limit =>
      dsimp only
      split
      · exact Or.inr (Or.inr ⟨rfl, by simp [HandlerStage.distance]⟩)
      · exact Or.inr (Or.inr ⟨rfl, by simp [HandlerStage.distance]⟩)
  | conclude newOffset changes => exact Or.inr (Or.inr ⟨rfl, Nat.lt_succ_self 2⟩)
  | record batch left =>
      cases left with
      | nil => exact Or.inr (Or.inr ⟨rfl, Nat.lt_succ_self 2⟩)
      | cons change left =>
          refine Or.inr (Or.inr ⟨rfl, ?_⟩)
          simp only [HandlerStage.distance, List.length_cons]
          omega
  | push batch change left =>
      refine Or.inr (Or.inr ⟨rfl, ?_⟩)
      simp only [HandlerStage.distance]
      omega
  | send response =>
      dsimp only
      unfold Handler.sendResponse
      split
      · exact Or.inl ⟨_, rfl⟩
      · split
        · exact Or.inl ⟨_, rfl⟩
        · split
          · exact Or.inl ⟨_, rfl⟩
          · exact Or.inr (Or.inr ⟨rfl, Nat.lt_succ_self 1⟩)
  | ended result => exact Or.inl ⟨result, hstage⟩

/-- Whatever the others have done, a handler comes to the end of its loop by its own steps. -/
theorem SharedNode.ends (wire : Wire) (s : SharedNode κ) (k : κ) (writes : Writes) :
    ∃ n result, (((sharedNode wire).run s (List.replicate n (.turn k writes))).handlers k).stage =
      .ended result := by
  have hturn : (s.next wire (.turn k writes)).handlers k =
      ((s.handlers k).turn wire s.manager writes).2 := Function.update_self _ _ _
  rcases turn_progress wire s.manager (s.handlers k) writes with ⟨result, hends⟩ | hcloser
  · refine ⟨1, result, ?_⟩
    rw [← hends, ← hturn]
    rfl
  · rcases SharedNode.ends wire (s.next wire (.turn k writes)) k writes with ⟨n, result, hends⟩
    exact ⟨n + 1, result, hends⟩
termination_by ((s.handlers k).rest.length, (s.handlers k).stage.distance)
decreasing_by
  rw [hturn]
  rcases hcloser with hread | ⟨hsame, hcloser⟩
  · exact Prod.Lex.left _ _ hread
  · rw [hsame]
    exact Prod.Lex.right _ hcloser

end IrohSync
