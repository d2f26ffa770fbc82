import Mathlib.Algebra.Order.Ring.Nat
import IrohSync.Lib.Followers
import IrohSync.Sync.Network

/-!
# Replicas of a log

Peers of which each may follow another one: it is fed with the changes from its own offset on.
A peer is an accepting side, which processes requests and responses alike.  The client between
the two, which asks the one for the other and carries the response back, is hypothetical: the
asking side of the protocol hands a response to {lit}`applyChanges`, which records nothing.

Between a peer and the one it follows there is at most one message under way, and it may be
lost.  Everything else is free: the order of the steps of different peers, what the origins
record in between, and the limits.

Main results:

- Theorem {lit}`getChangesSince_retained`: a read from an offset that is retained.
- Theorem {lit}`Replicated.next`: what a step does to the histories of the peers.
- Theorem {lit}`replicas_agree`: in every run each peer has a prefix of what the one it
  follows has.
- Theorem {lit}`replicas_settle`: one round through the peers brings all of them to where
  the origin is.
-/

namespace IrohSync

open BoundedLog Followers Machine

variable {ι : Type} [DecidableEq ι]

/-! ## Runs -/

/-- What is under way between a peer and the one that it follows. -/
inductive Line where
  | idle
  | request (msg : SyncMessage)
  | answer (msg : SyncMessage)

/-- The managers of all peers, and for each peer what is under way. -/
structure Replicas (ι : Type) where
  peers : ι → SyncManager
  line : ι → Line

/-- A peer records a change of its own; a client asks for changes from the peer's offset on, the
one that it follows processes the request, the peer processes the response that the client brings,
or the message is lost. -/
inductive ReplicaEvent (ι : Type) where
  | record (peer : ι) (change : Change)
  | ask (peer : ι) (limit : Option UInt64)
  | serve (peer : ι) (localOffset : UInt64)
  | take (peer : ι) (localOffset : UInt64)
  | lose (peer : ι)

/-- New peers, with nothing under way. -/
def Replicas.new (maxChanges : ι → UInt64) : Replicas ι where
  peers := fun peer => SyncManager.new (maxChanges peer)
  line := fun _ => .idle

/-- The peers after an event. -/
def Replicas.next (upstream : ι → Option ι) (r : Replicas ι) : ReplicaEvent ι → Replicas ι
  | .record peer change =>
      { r with peers := Function.update r.peers peer ((r.peers peer).recordChange change).1 }
  | .ask peer limit =>
      match r.line peer with
      | .idle =>
          { r with
            line := Function.update r.line peer (.request (.request (r.peers peer).offset limit)) }
      | _ => r
  | .serve peer localOffset =>
      match r.line peer, upstream peer with
      | .request msg, some server =>
          let processed := (r.peers server).processMessage msg localOffset
          { peers := Function.update r.peers server processed.1
            line := Function.update r.line peer (.answer processed.2) }
      | _, _ => r
  | .take peer localOffset =>
      match r.line peer with
      | .answer msg =>
          { peers := Function.update r.peers peer
              ((r.peers peer).processMessage msg localOffset).1
            line := Function.update r.line peer .idle }
      | _ => r
  | .lose peer => { r with line := Function.update r.line peer .idle }

/-- The changes that an event brings to a peer. -/
def Replicas.brought (r : Replicas ι) : ReplicaEvent ι → List (ι × Change)
  | .record peer change => [(peer, change)]
  | .take peer _ =>
      match r.line peer with
      | .answer msg => msg.changes.map fun change => (peer, change)
      | _ => []
  | .ask _ _ => []
  | .serve _ _ => []
  | .lose _ => []

/-- Peers that follow each other. -/
def replicas (upstream : ι → Option ι) :
    Machine (Replicas ι) (ReplicaEvent ι) (List (ι × Change)) where
  next := Replicas.next upstream
  answer := Replicas.brought

/-- The changes that one peer recorded or was brought during a run. -/
def history (upstream : ι → Option ι) (r : Replicas ι) (events : List (ReplicaEvent ι))
    (peer : ι) : List Change :=
  ((replicas upstream).answers r events).flatMap (broughtTo peer)

/-- The changes that one peer recorded of its own. -/
def recordedAt (peer : ι) : List (ReplicaEvent ι) → List Change
  | [] => []
  | .record p change :: events =>
      if p = peer then change :: recordedAt peer events else recordedAt peer events
  | _ :: events => recordedAt peer events

/-- A peer records a change of its own. -/
def ReplicaEvent.isRecord : ReplicaEvent ι → Bool
  | .record _ _ => true
  | _ => false

/-- The log still holds all that was recorded from an offset on. -/
def SyncManager.Retains (m : SyncManager) (offset : UInt64) : Prop :=
  m.offset.toNat - offset.toNat ≤ m.changes.length

instance (m : SyncManager) (offset : UInt64) : Decidable (m.Retains offset) :=
  inferInstanceAs (Decidable (_ ≤ _))

/-- Only a peer that follows nobody records changes of its own, and a request is served
while the changes it asks for are retained. -/
def Sound (upstream : ι → Option ι) (r : Replicas ι) : ReplicaEvent ι → Prop
  | .record peer _ => upstream peer = none
  | .serve peer _ => ∀ server offset limit, upstream peer = some server →
      r.line peer = .request (.request offset limit) → (r.peers server).Retains offset
  | _ => True

/-! ## One page -/

/-- The counter of a manager that recorded changes. -/
theorem offset_recordAll_new (maxChanges : UInt64) {cs : List Change} (hlt : cs.length < 2 ^ 64) :
    ((SyncManager.new maxChanges).recordAll cs).offset.toNat = cs.length := by
  rw [recordAll_offset, SyncManager.new, UInt64.zero_add, UInt64.toNat_ofNat_of_lt' hlt]

/-- A read from an offset that is retained returns everything recorded from there on. -/
theorem getChangesSince_retained {maxChanges offset : UInt64} {cs : List Change}
    (hlt : cs.length < 2 ^ 64) (hoffset : offset.toNat ≤ cs.length)
    (hretains : ((SyncManager.new maxChanges).recordAll cs).Retains offset) :
    ((SyncManager.new maxChanges).recordAll cs).getChangesSince offset =
      cs.drop offset.toNat := by
  have hcount := offset_recordAll_new maxChanges hlt
  rw [SyncManager.Retains, hcount, changes_recordAll_new, latest_length] at hretains
  rw [getChangesSince_eq, hcount, changes_recordAll_new, latest_latest,
    Nat.min_eq_left (hretains.trans (Nat.min_le_left _ _)), latest]
  congr 1
  omega

/-- A page from a retained offset continues what was recorded up to there. -/
theorem answer_retained {maxChanges offset : UInt64} {cs have' : List Change}
    (limit : Option UInt64) (hlt : cs.length < 2 ^ 64) (hpre : have' <+: cs)
    (hoffset : offset.toNat = have'.length)
    (hretains : ((SyncManager.new maxChanges).recordAll cs).Retains offset) :
    have' ++ (((SyncManager.new maxChanges).recordAll cs).answer offset limit).changes <+: cs := by
  have hread := getChangesSince_retained hlt (hoffset ▸ hpre.length_le) hretains
  have hpage := truncate_prefix (cs.drop offset.toNat) limit
  have hfront := List.prefix_iff_eq_take.mp hpre
  rw [SyncManager.answer, hread]
  calc have' ++ truncate (cs.drop offset.toNat) limit
      <+: have' ++ cs.drop offset.toNat := (List.prefix_append_right_inj _).mpr hpage
    _ = cs.take have'.length ++ cs.drop have'.length := by rw [hoffset, ← hfront]
    _ = cs := List.take_append_drop _ _

/-! ## The invariant -/

/-- Every peer has recorded its history, which is a prefix of the history that it follows;
a request under way asks from the end of the history on, and a response continues it. -/
structure Replicated (upstream : ι → Option ι) (maxChanges : ι → UInt64)
    (hist : ι → List Change) (r : Replicas ι) : Prop where
  manager : ∀ p, r.peers p = (SyncManager.new (maxChanges p)).recordAll (hist p)
  followed : Followed upstream hist
  request : ∀ p u msg, upstream p = some u → r.line p = .request msg →
    ∃ limit, msg = .request (r.peers p).offset limit
  answer : ∀ p msg, r.line p = .answer msg → ∃ u batch,
    upstream p = some u ∧ msg = .response batch ∧ hist p ++ batch.changes <+: hist u

variable {upstream : ι → Option ι} {maxChanges : ι → UInt64} {hist : ι → List Change}
  {r : Replicas ι}

omit [DecidableEq ι] in
theorem replicated_new (upstream : ι → Option ι) (maxChanges : ι → UInt64) :
    Replicated upstream maxChanges (fun _ => []) (Replicas.new maxChanges) :=
  ⟨fun _ => rfl, followed_nil, fun _ _ _ _ hmsg => (nomatch hmsg), fun _ _ hmsg => (nomatch hmsg)⟩

/-- Histories with what is brought to one peer. -/
theorem append_broughtTo (hist : ι → List Change) (p : ι) (cs : List Change) :
    (fun q => hist q ++ broughtTo q (cs.map fun change => (p, change))) =
      Function.update hist p (hist p ++ cs) := by
  funext q
  by_cases hq : q = p
  · subst q
    rw [broughtTo_self, Function.update_self]
  · rw [broughtTo_of_ne (Ne.symm hq), List.append_nil, Function.update_of_ne hq]

/-- A peer records changes, and has nothing under way behind that unless it is an origin. -/
theorem Replicated.grow (h : Replicated upstream maxChanges hist r) (p : ι) (cs : List Change)
    (line : ι → Line) (hreach : ∀ u, upstream p = some u → hist p ++ cs <+: hist u)
    (hline : ∀ q, line q ≠ .idle → line q = r.line q ∧ (q = p → upstream p = none)) :
    Replicated upstream maxChanges (Function.update hist p (hist p ++ cs))
      { peers := Function.update r.peers p ((r.peers p).recordAll cs), line := line } := by
  have hgrown : ∀ q, hist q <+: Function.update hist p (hist p ++ cs) q := by
    intro q
    by_cases hq : q = p
    · subst q
      rw [Function.update_self]
      exact List.prefix_append _ _
    · rw [Function.update_of_ne hq]
  refine ⟨fun q => ?_, h.followed.update (List.prefix_append _ _) hreach,
    fun q u msg hfollows hmsg => ?_, fun q msg hmsg => ?_⟩
  · by_cases hq : q = p
    · subst q
      simp only [Function.update_self, recordAll_append, h.manager]
    · simp only [Function.update_of_ne hq, h.manager]
  · rcases hline q (by simp [show line q = _ from hmsg]) with ⟨hsame, horigin⟩
    have hne : q ≠ p := by
      rintro rfl
      simp [horigin rfl] at hfollows
    rcases h.request q u msg hfollows (hsame ▸ hmsg) with ⟨limit, rfl⟩
    exact ⟨limit, by simp [Function.update_of_ne hne]⟩
  · rcases hline q (by simp [show line q = _ from hmsg]) with ⟨hsame, horigin⟩
    rcases h.answer q msg (hsame ▸ hmsg) with ⟨u, batch, hfollows, rfl, hpre⟩
    have hne : q ≠ p := by
      rintro rfl
      simp [horigin rfl] at hfollows
    rw [Function.update_of_ne hne]
    exact ⟨u, batch, hfollows, rfl, hpre.trans (hgrown u)⟩

/-- What is under way changes for one peer. -/
theorem Replicated.setLine (h : Replicated upstream maxChanges hist r) {p : ι} {line : Line}
    (hrequest : ∀ u msg, upstream p = some u → line = .request msg →
      ∃ limit, msg = .request (r.peers p).offset limit)
    (hanswer : ∀ msg, line = .answer msg → ∃ u batch,
      upstream p = some u ∧ msg = .response batch ∧ hist p ++ batch.changes <+: hist u) :
    Replicated upstream maxChanges hist { r with line := Function.update r.line p line } := by
  refine ⟨h.manager, h.followed, fun q u msg hfollows hmsg => ?_, fun q msg hmsg => ?_⟩
  · by_cases hq : q = p
    · subst q
      exact hrequest u msg hfollows (by simpa using hmsg)
    · exact h.request q u msg hfollows (by simpa [Function.update_of_ne hq] using hmsg)
  · by_cases hq : q = p
    · subst q
      exact hanswer msg (by simpa using hmsg)
    · exact h.answer q msg (by simpa [Function.update_of_ne hq] using hmsg)

/-! ## Steps -/

omit [DecidableEq ι] in
/-- The answer to what a peer asks continues its history. -/
theorem Replicated.serve (h : Replicated upstream maxChanges hist r) {p u : ι}
    {msg : SyncMessage} (hfollows : upstream p = some u) (hmsg : r.line p = .request msg)
    (hretains : ∀ offset limit, msg = .request offset limit → (r.peers u).Retains offset)
    (hlt : ∀ q, (hist q).length < 2 ^ 64) (localOffset : UInt64) :
    ∃ batch, (r.peers u).processMessage msg localOffset = (r.peers u, .response batch) ∧
      hist p ++ batch.changes <+: hist u := by
  rcases h.request p u msg hfollows hmsg with ⟨limit, rfl⟩
  refine ⟨_, processMessage_request _ _ _ _, ?_⟩
  have hoffset := offset_recordAll_new (maxChanges p) (hlt p)
  have hretained := hretains _ _ rfl
  rw [h.manager u] at hretained ⊢
  rw [h.manager p] at hretained ⊢
  exact answer_retained limit (hlt u) (h.followed p u hfollows) hoffset hretained

/-- A sound step keeps the invariant, with what it brings added to the histories. -/
theorem Replicated.next (h : Replicated upstream maxChanges hist r) {event : ReplicaEvent ι}
    (hsound : Sound upstream r event) (hlt : ∀ q, (hist q).length < 2 ^ 64) :
    Replicated upstream maxChanges (fun q => hist q ++ broughtTo q (r.brought event))
      (r.next upstream event) := by
  have hquiet : (fun q => hist q ++ broughtTo q []) = hist :=
    funext fun q => List.append_nil _
  cases event with
  | record p c =>
      have hgrow := h.grow p [c] r.line
        (fun u hfollows => by simp [show upstream p = none from hsound] at hfollows)
        (fun q _ => ⟨rfl, fun _ => hsound⟩)
      rw [← append_broughtTo] at hgrow
      exact hgrow
  | ask p limit =>
      rw [Replicas.brought, hquiet, Replicas.next]
      split
      · refine h.setLine (fun u msg _ hmsg => ⟨limit, ?_⟩) (fun msg hmsg => by contradiction)
        injection hmsg with hmsg
        exact hmsg.symm
      · exact h
  | serve p localOffset =>
      rw [Replicas.brought, hquiet, Replicas.next]
      split
      · next msg u hmsg hfollows =>
          rcases h.serve hfollows hmsg (fun offset limit heq =>
            hsound u offset limit hfollows (heq ▸ hmsg)) hlt localOffset with
            ⟨batch, hprocess, hpre⟩
          rw [hprocess]
          simp only [Function.update_eq_self]
          refine h.setLine (fun _ _ _ hmsg => by contradiction) (fun msg hmsg => ?_)
          injection hmsg with hmsg
          exact ⟨u, batch, hfollows, hmsg.symm, hpre⟩
      · exact h
  | take p localOffset =>
      rw [Replicas.next]
      split
      · next msg hmsg =>
          rcases h.answer p msg hmsg with ⟨u, batch, hfollows, rfl, hpre⟩
          have hgrow := h.grow p batch.changes (Function.update r.line p .idle)
            (fun v hfollows' => by
              obtain rfl := Option.some.inj (hfollows.symm.trans hfollows')
              exact hpre)
            (fun q hbusy => by
              have hne : q ≠ p := by
                rintro rfl
                exact hbusy (Function.update_self _ _ _)
              exact ⟨Function.update_of_ne hne _ _, fun heq => absurd heq hne⟩)
          rw [← append_broughtTo] at hgrow
          rw [Replicas.brought, hmsg]
          exact hgrow
      · next hnone =>
          rw [Replicas.brought]
          split
          · next msg hmsg => exact absurd hmsg (hnone msg)
          · rw [hquiet]
            exact h
  | lose p =>
      rw [Replicas.brought, hquiet, Replicas.next]
      exact h.setLine (fun _ _ _ hmsg => by contradiction) (fun _ hmsg => by contradiction)

/-- A sound step that records a change makes the histories longer by at most one. -/
theorem Replicated.length_next (h : Replicated upstream maxChanges hist r)
    {event : ReplicaEvent ι} {n : Nat} (hlength : ∀ q, (hist q).length ≤ n) (q : ι) :
    (hist q ++ broughtTo q (r.brought event)).length ≤
      n + if event.isRecord then 1 else 0 := by
  have hq := hlength q
  cases event with
  | record p c =>
      have hone : (broughtTo q [(p, c)]).length ≤ 1 := List.length_filterMap_le _ _
      rw [List.length_append]
      exact Nat.add_le_add hq hone
  | take p localOffset =>
      rw [Replicas.brought]
      split
      · next msg hmsg =>
          rcases h.answer p msg hmsg with ⟨u, batch, hfollows, rfl, hpre⟩
          have hu := hlength u
          by_cases hpq : p = q
          · subst p
            rw [SyncMessage.changes, broughtTo_self]
            exact hpre.length_le.trans hu
          · rw [broughtTo_of_ne hpq, List.append_nil]
            exact hq
      · rw [broughtTo, List.filterMap_nil, List.append_nil]
        exact hq
  | ask p limit => simpa [Replicas.brought, broughtTo, ReplicaEvent.isRecord] using hq
  | serve p localOffset => simpa [Replicas.brought, broughtTo, ReplicaEvent.isRecord] using hq
  | lose p => simpa [Replicas.brought, broughtTo, ReplicaEvent.isRecord] using hq

/-- Nothing but its own recordings is brought to a peer that follows nobody. -/
theorem Replicated.brought_origin (h : Replicated upstream maxChanges hist r) {p : ι}
    (horigin : upstream p = none) (event : ReplicaEvent ι) :
    broughtTo p (r.brought event) = recordedAt p [event] := by
  cases event with
  | record q c => by_cases hq : q = p <;> simp [Replicas.brought, broughtTo, recordedAt, hq]
  | take q localOffset =>
      have hnone : recordedAt p [ReplicaEvent.take q localOffset] = [] := rfl
      rw [Replicas.brought, hnone]
      split
      · next msg hmsg =>
          rcases h.answer q msg hmsg with ⟨u, batch, hfollows, rfl, _⟩
          refine broughtTo_of_ne ?_ _
          rintro rfl
          simp [horigin] at hfollows
      · rfl
  | ask q limit => rfl
  | serve q localOffset => rfl
  | lose q => rfl

/-! ## Whole runs -/

theorem history_cons (r : Replicas ι) (event : ReplicaEvent ι) (events : List (ReplicaEvent ι))
    (p : ι) : history upstream r (event :: events) p =
      broughtTo p (r.brought event) ++ history upstream (r.next upstream event) events p :=
  rfl

theorem recordedAt_cons (p : ι) (event : ReplicaEvent ι) (events : List (ReplicaEvent ι)) :
    recordedAt p (event :: events) = recordedAt p [event] ++ recordedAt p events := by
  cases event with
  | record q c => by_cases hq : q = p <;> simp [recordedAt, hq]
  | _ => rfl

theorem history_append (r : Replicas ι) (events events' : List (ReplicaEvent ι)) (p : ι) :
    history upstream r (events ++ events') p = history upstream r events p ++
      history upstream ((replicas upstream).run r events) events' p := by
  induction events generalizing r with
  | nil => rfl
  | cons event events ih =>
      rw [List.cons_append, history_cons, history_cons, ih, List.append_assoc]
      rfl

/-- The invariant along a run. -/
theorem Replicated.run {events : List (ReplicaEvent ι)} {n : Nat}
    (h : Replicated upstream maxChanges hist r) (hlength : ∀ q, (hist q).length ≤ n)
    (hcount : n + events.countP ReplicaEvent.isRecord < 2 ^ 64)
    (halong : (replicas upstream).Along (Sound upstream) r events) :
    Replicated upstream maxChanges (fun q => hist q ++ history upstream r events q)
        ((replicas upstream).run r events) ∧
      (∀ q, (hist q ++ history upstream r events q).length ≤
        n + events.countP ReplicaEvent.isRecord) ∧
      ∀ q, upstream q = none → history upstream r events q = recordedAt q events := by
  induction events generalizing r hist n with
  | nil =>
      have hnil : (fun q => hist q ++ history upstream r [] q) = hist :=
        funext fun q => List.append_nil _
      rw [hnil]
      exact ⟨h, fun q => (congrArg List.length (List.append_nil _)).trans_le (hlength q),
        fun q _ => rfl⟩
  | cons event events ih =>
      rw [List.countP_cons] at hcount ⊢
      have hnext := h.next halong.1 fun q => by have hq := hlength q; omega
      rcases ih hnext (h.length_next hlength) (by omega) halong.2 with
        ⟨hrun, hlength', horigin⟩
      have hhistory : ∀ q, hist q ++ history upstream r (event :: events) q =
          hist q ++ broughtTo q (r.brought event) ++
            history upstream (r.next upstream event) events q := by
        intro q
        rw [history_cons, List.append_assoc]
      refine ⟨(funext hhistory) ▸ hrun, fun q => ?_, fun q hq => ?_⟩
      · rw [hhistory]
        have hle := hlength' q
        omega
      · rw [history_cons, recordedAt_cons, h.brought_origin hq, horigin q hq]

/-- What holds of the peers after a run: each has recorded its history, an origin its own
changes, and every other peer a prefix of what any peer that it draws on has; of two peers
that draw on one neither contradicts the other. -/
structure Agree (upstream : ι → Option ι) (maxChanges : ι → UInt64)
    (events : List (ReplicaEvent ι)) : Prop where
  offset : ∀ p, (((replicas upstream).run (.new maxChanges) events).peers p).offset.toNat =
    (history upstream (.new maxChanges) events p).length
  log : ∀ p, (((replicas upstream).run (.new maxChanges) events).peers p).changes =
    latest (maxChanges p).toNat (history upstream (.new maxChanges) events p)
  origin : ∀ p, upstream p = none →
    history upstream (.new maxChanges) events p = recordedAt p events
  drawsOn : ∀ p o, DrawsOn upstream p o → history upstream (.new maxChanges) events p <+:
    history upstream (.new maxChanges) events o
  comparable : ∀ p q o, DrawsOn upstream p o → DrawsOn upstream q o →
    history upstream (.new maxChanges) events p <+: history upstream (.new maxChanges) events q ∨
      history upstream (.new maxChanges) events q <+:
        history upstream (.new maxChanges) events p

/-- However the steps of the peers are interleaved, whatever messages are lost and whatever
the limits are: as long as only origins record changes of their own and no request comes
after what it asks for was dropped, nothing is skipped, repeated or reordered anywhere. -/
theorem replicas_agree (upstream : ι → Option ι) (maxChanges : ι → UInt64)
    (events : List (ReplicaEvent ι)) (hcount : events.countP ReplicaEvent.isRecord < 2 ^ 64)
    (halong : (replicas upstream).Along (Sound upstream) (.new maxChanges) events) :
    Agree upstream maxChanges events := by
  rcases (replicated_new upstream maxChanges).run (n := 0) (fun _ => Nat.le_refl 0)
    (by omega) halong with ⟨hrun, hlength, horigin⟩
  simp only [List.nil_append] at hrun hlength
  refine ⟨fun p => ?_, fun p => ?_, horigin, fun p o => hrun.followed.isPrefix,
    fun p q o => hrun.followed.comparable⟩
  · have hle := hlength p
    rw [hrun.manager]
    exact offset_recordAll_new _ (by omega)
  · rw [hrun.manager]
    exact changes_recordAll_new _ _

/-- One peer follows another one. -/
def sampleUpstream : Bool → Option Bool
  | true => none
  | false => some true

/-- The origin records a change between the request and its processing, and the response
to the next request is lost. -/
def sampleReplication : List (ReplicaEvent Bool) :=
  [.ask false none, .record true sampleChange, .serve false 0, .take false 0,
    .ask false (some 1), .serve false 0, .lose false]

theorem replicas_agree_sample : Agree sampleUpstream (fun _ => 10) sampleReplication := by
  refine replicas_agree sampleUpstream (fun _ => 10) sampleReplication (by decide) ?_
  refine ⟨trivial, rfl, ?_, trivial, trivial, ?_, trivial, trivial⟩
  · rintro server offset limit hserver hrequest
    cases hserver
    cases hrequest
    decide
  · rintro server offset limit hserver hrequest
    cases hserver
    cases hrequest
    decide

/-! ## Settling -/

/-- One round of a peer: whatever is under way is given up, and all changes are asked for,
sent and taken over. -/
def round (p : ι) : List (ReplicaEvent ι) :=
  [.lose p, .ask p none, .serve p 0, .take p 0]

/-- Every peer of a list follows one of those before it, or one of the given ones. -/
def FollowsIn (upstream : ι → Option ι) : List ι → List ι → Prop
  | _, [] => True
  | done, p :: rest => (∃ u ∈ done, upstream p = some u) ∧ FollowsIn upstream (p :: done) rest

/-- What a round asks for. -/
theorem next_ask (upstream : ι → Option ι) (r : Replicas ι) (p : ι) :
    (r.next upstream (.lose p)).next upstream (.ask p none) =
      { r with
        line := Function.update r.line p (.request (.request (r.peers p).offset none)) } := by
  simp only [Replicas.next, Function.update_self, Function.update_idem]

/-- What a round brings. -/
theorem history_round (r : Replicas ι) {p u : ι} (hfollows : upstream p = some u) (q : ι) :
    history upstream r (round p) q = broughtTo q
      (((r.peers u).getChangesSince (r.peers p).offset).map fun change => (p, change)) := by
  rw [round, history_cons, history_cons, next_ask, history_cons, history_cons]
  simp only [Replicas.brought, Replicas.next, Function.update_self, hfollows,
    processMessage_request, SyncMessage.changes, SyncManager.answer, truncate]
  simp [history, broughtTo]

/-- A sound round finds what it asks for retained. -/
theorem retains_of_sound {r : Replicas ι} {p u : ι} (hfollows : upstream p = some u)
    (halong : (replicas upstream).Along (Sound upstream) r (round p)) :
    (r.peers u).Retains (r.peers p).offset := by
  have hserve : Sound upstream _ (ReplicaEvent.serve p 0) := halong.2.2.1
  have hstate := next_ask upstream r p
  rw [show (replicas upstream).next = Replicas.next upstream from rfl, hstate] at hserve
  exact hserve u _ _ hfollows (Function.update_self _ _ _)

/-- After a round the peer has what the one that it follows has, and the others have what
they had. -/
theorem Replicated.round_history (h : Replicated upstream maxChanges hist r) {p u : ι}
    (hfollows : upstream p = some u) (hlt : ∀ q, (hist q).length < 2 ^ 64)
    (halong : (replicas upstream).Along (Sound upstream) r (round p)) :
    (fun q => hist q ++ history upstream r (round p) q) =
      Function.update hist p (hist u) := by
  have hretains := retains_of_sound hfollows halong
  have hpre := h.followed p u hfollows
  have hoffset : (r.peers p).offset.toNat = (hist p).length := by
    rw [h.manager]
    exact offset_recordAll_new _ (hlt p)
  rw [h.manager u] at hretains
  have hread := getChangesSince_retained (hlt u) (hoffset ▸ hpre.length_le) hretains
  have hsplit : hist p ++ (hist u).drop (hist p).length = hist u := by
    conv_rhs => rw [← List.take_append_drop (hist p).length (hist u)]
    rw [← List.prefix_iff_eq_take.mp hpre]
  simp only [history_round r hfollows]
  rw [append_broughtTo, h.manager u, hread, hoffset, hsplit]

/-- Rounds of peers each of which follows one that already has everything. -/
theorem Replicated.settle (done : List ι) {order : List ι} {all : List Change} {n : Nat}
    (h : Replicated upstream maxChanges hist r) (hdone : ∀ q ∈ done, hist q = all)
    (hfollows : FollowsIn upstream done order) (hlength : ∀ q, (hist q).length ≤ n)
    (hlt : n < 2 ^ 64)
    (halong : (replicas upstream).Along (Sound upstream) r (order.flatMap round)) :
    ∀ p ∈ order, hist p ++ history upstream r (order.flatMap round) p = all := by
  suffices hall : ∀ p, p ∈ done ∨ p ∈ order →
      hist p ++ history upstream r (order.flatMap round) p = all from
    fun p hp => hall p (Or.inr hp)
  induction order generalizing r hist done with
  | nil =>
      rintro p (hp | hp)
      · exact (List.append_nil _).trans (hdone p hp)
      · simp at hp
  | cons p order ih =>
      rcases hfollows with ⟨⟨u, hu, hup⟩, hrest⟩
      rw [List.flatMap_cons] at halong ⊢
      rw [along_append] at halong
      have hquiet : (round p).countP ReplicaEvent.isRecord = 0 := rfl
      have hround := h.round_history hup (fun q => (hlength q).trans_lt hlt) halong.1
      rcases h.run hlength (by rw [hquiet]; omega) halong.1 with ⟨hrun, hlength', _⟩
      rw [hquiet] at hlength'
      rw [hround] at hrun
      -- what the round brings was counted before
      have hlengths : ∀ q, (Function.update hist p (hist u) q).length ≤ n := fun q => by
        rw [← hround]
        exact hlength' q
      have hdones : ∀ q ∈ p :: done, Function.update hist p (hist u) q = all := by
        intro q hq
        by_cases hqp : q = p
        · rw [hqp, Function.update_self, hdone u hu]
        · rw [Function.update_of_ne hqp]
          exact hdone q ((List.mem_cons.mp hq).resolve_left hqp)
      intro q hq
      rw [history_append, ← List.append_assoc, congrFun hround q]
      refine ih (p :: done) hrun hdones hrest hlengths halong.2 q ?_
      rcases hq with hq | hq
      · exact Or.inl (List.mem_cons_of_mem _ hq)
      · rcases List.mem_cons.mp hq with rfl | hq
        · exact Or.inl List.mem_cons_self
        · exact Or.inr hq

/-- From whatever a run left behind, one round of each peer, in an order in which every one
comes behind the one that it follows, brings all of them to the history of the peer that
the order begins from. -/
theorem replicas_settle (upstream : ι → Option ι) (maxChanges : ι → UInt64)
    (events : List (ReplicaEvent ι)) (origin : ι) (order : List ι)
    (hcount : events.countP ReplicaEvent.isRecord < 2 ^ 64)
    (hfollows : FollowsIn upstream [origin] order)
    (halong : (replicas upstream).Along (Sound upstream) (.new maxChanges)
      (events ++ order.flatMap round)) :
    ∀ p ∈ order,
      history upstream (.new maxChanges) (events ++ order.flatMap round) p =
          history upstream (.new maxChanges) events origin ∧
        (((replicas upstream).run (.new maxChanges) (events ++ order.flatMap round)).peers
            p).changes =
          latest (maxChanges p).toNat (history upstream (.new maxChanges) events origin) := by
  rw [along_append] at halong
  rcases (replicated_new upstream maxChanges).run (n := 0) (fun _ => Nat.le_refl 0)
    (by omega) halong.1 with ⟨hrun, hlength, _⟩
  simp only [List.nil_append] at hrun hlength
  have hquiet : (order.flatMap round).countP ReplicaEvent.isRecord = 0 := by
    rw [List.countP_eq_zero]
    intro event hevent
    rcases List.mem_flatMap.mp hevent with ⟨p, _, hround⟩
    simp only [round, List.mem_cons, List.not_mem_nil, or_false] at hround
    rcases hround with rfl | rfl | rfl | rfl <;> exact Bool.false_ne_true
  rcases hrun.run hlength (by rw [hquiet]; omega) halong.2 with ⟨hlast, _, _⟩
  have hsettle := hrun.settle [origin] (fun q hq => by rw [List.mem_singleton.mp hq])
    hfollows hlength (by omega) halong.2
  intro p hp
  refine ⟨(history_append _ _ _ _).trans (hsettle p hp), ?_⟩
  rw [run_append, hlast.manager, changes_recordAll_new, hsettle p hp]

theorem replicas_settle_sample :
    history sampleUpstream (.new fun _ => 10) (sampleReplication ++ [false].flatMap round) false =
        history sampleUpstream (.new fun _ => 10) sampleReplication true ∧
      (((replicas sampleUpstream).run (.new fun _ => 10)
          (sampleReplication ++ [false].flatMap round)).peers false).changes =
        latest 10 (history sampleUpstream (.new fun _ => 10) sampleReplication true) := by
  refine replicas_settle sampleUpstream (fun _ => 10) sampleReplication true [false]
    (by decide) ⟨⟨true, List.mem_singleton_self _, rfl⟩, trivial⟩ ?_ false
    (List.mem_singleton_self _)
  refine ⟨trivial, rfl, ?_, trivial, trivial, ?_, trivial, trivial, trivial, ?_, trivial,
    trivial⟩
  all_goals
    rintro server offset limit hserver hrequest
    cases hserver
    cases hrequest
    decide

end IrohSync
