import IrohSync.Lib.Machine
import IrohSync.Snapshot.Grouping
import IrohSync.Snapshot.Lossless

/-!
# Shipping snapshots

Changes are added to an exporter, which from time to time exports a snapshot of those that are
pending.  The chunks arrive at an importer in any order and any number of times, or the snapshot
is handed over in one buffer.  At the other end its entries are replayed.

Main results:

- Theorem {lit}`finalize_delivered`: what an importer makes of chunks that all arrive.
- Theorem {lit}`shipping_replays`: however the changes are spread over snapshots, the store at
  the other end is the one that all changes give.
-/

namespace IrohSync

open FileIo Chunks Machine

/-! ## Runs -/

/-- Export a snapshot of the pending changes in one buffer. -/
def SnapshotExporter.exportBuffer (env : SnapshotEnv) (codec : SnapshotCodec)
    (e : SnapshotExporter) : SnapshotExporter × Except IoError Bytes :=
  let built := e.serializer.buildSnapshot env
  ({ e with serializer := built.1 }, serialize codec built.2)

/-- The chunks with the given numbers, in their order. -/
def deliver (chunks : List SnapshotChunk) (order : List Nat) : List SnapshotChunk :=
  order.filterMap fun i => chunks[i]?

/-- An exporter, and an importer with the store in which its snapshots are replayed. -/
structure Shipping where
  exporter : SnapshotExporter
  importer : SnapshotImporter
  store : Store

/-- A change is added, or a snapshot is shipped: in chunks that arrive in an order, or in one
buffer.  A number tells with what clock and with what orders of the maps it is exported. -/
inductive ShippingEvent where
  | add (change : Change)
  | ship (k : Nat) (order : List Nat)
  | shipBuffer (k : Nat)

/-- Nothing was added or shipped. -/
def Shipping.start (config : SnapshotConfig) (store : Store) : Shipping where
  exporter := .new config
  importer := .new
  store := store

/-- Import chunks after a reset and replay the snapshot; a call that panics changes nothing. -/
def Shipping.receive (codec : SnapshotCodec) (s : Shipping) (calls : List SnapshotChunk) :
    Shipping :=
  match s.importer.reset.importEach calls with
  | none => s
  | some (importer, _) =>
      match importer.finalize codec with
      | .error _ => { s with importer := importer }
      | .ok snapshot =>
          { s with
            importer := importer
            store := replayAll s.store (databaseList snapshot.namespaces) }

/-- Replay a snapshot that comes in one buffer. -/
def Shipping.receiveBuffer (codec : SnapshotCodec) (s : Shipping) (data : Bytes) : Shipping :=
  match deserialize codec data with
  | .error _ => s
  | .ok snapshot => { s with store := replayAll s.store (databaseList snapshot.namespaces) }

/-- The state after an event. -/
def Shipping.next (env : Nat → SnapshotEnv) (codec : SnapshotCodec) (s : Shipping) :
    ShippingEvent → Shipping
  | .add change => { s with exporter := s.exporter.addChange change }
  | .ship k order =>
      let exported := s.exporter.export (env k) codec
      match exported.2 with
      | some (.ok chunks) =>
          Shipping.receive codec { s with exporter := exported.1 } (deliver chunks order)
      | _ => { s with exporter := exported.1 }
  | .shipBuffer k =>
      let exported := s.exporter.exportBuffer (env k) codec
      match exported.2 with
      | .ok data => Shipping.receiveBuffer codec { s with exporter := exported.1 } data
      | .error _ => { s with exporter := exported.1 }

/-- The changes that are pending. -/
def Shipping.pending (s : Shipping) : List Change :=
  s.exporter.serializer.pendingChanges

/-- Snapshots on their way, and how many changes each event leaves pending. -/
def shipping (env : Nat → SnapshotEnv) (codec : SnapshotCodec) :
    Machine Shipping ShippingEvent Nat where
  next := Shipping.next env codec
  answer := fun s event => (s.next env codec event).pending.length

/-- The changes that are added. -/
def added : List ShippingEvent → List Change
  | [] => []
  | .add change :: events => change :: added events
  | .ship _ _ :: events => added events
  | .shipBuffer _ :: events => added events

/-- A snapshot that is shipped can be exported, and each of its chunks arrives at least once. -/
def Arrives (env : Nat → SnapshotEnv) (codec : SnapshotCodec) (s : Shipping) :
    ShippingEvent → Prop
  | .add _ => True
  | .ship k order => ∃ chunks, (s.exporter.export (env k) codec).2 = some (.ok chunks) ∧
      ∀ i < chunks.length, i ∈ order
  | .shipBuffer k => ∃ data, (s.exporter.exportBuffer (env k) codec).2 = .ok data

/-! ## One snapshot -/

variable {env : Nat → SnapshotEnv} {codec : SnapshotCodec}

theorem mem_deliver {chunks : List SnapshotChunk} {order : List Nat} {c : SnapshotChunk} :
    c ∈ deliver chunks order ↔ ∃ i ∈ order, chunks[i]? = some c :=
  List.mem_filterMap

/-- Every number is among those of the chunks that arrive. -/
theorem imported_deliver {snapshot : DatabaseSnapshot} {chunkSize : Nat} {data : Bytes}
    {chunks : List SnapshotChunk} (h : Exported codec snapshot chunkSize data chunks)
    {order : List Nat} (horder : ∀ i < chunks.length, i ∈ order) :
    ∀ i < chunks.length, i ∈ imported (deliver chunks order) := by
  intro i hi
  have hmem : i ∈ chunks.map fun c => c.sequence.toNat := by
    rw [h.wellCut.sequence]
    exact List.mem_range.mpr hi
  rcases List.mem_map.mp hmem with ⟨c, hc, hsequence⟩
  rcases List.getElem?_of_mem hc with ⟨j, hj⟩
  have hbound := (List.getElem?_eq_some_iff.mp hj).1
  exact List.mem_map.mpr ⟨c, mem_deliver.mpr ⟨j, horder j hbound, hj⟩, hsequence⟩

/-- A reset importer puts the snapshot of an export together once all its chunks arrived. -/
theorem finalize_delivered (hcodec : codec.Lawful) {env : SnapshotEnv}
    {exporter : SnapshotExporter} {chunks : List SnapshotChunk}
    (hexport : (exporter.export env codec).2 = some (.ok chunks))
    {order : List Nat} (horder : ∀ i < chunks.length, i ∈ order) (importer : SnapshotImporter) :
    ∃ importer' results,
      importer.reset.importEach (deliver chunks order) = some (importer', results) ∧
        importer'.finalize codec = .ok (exporter.serializer.buildSnapshot env).2 := by
  rcases exported_of_export hcodec hexport with ⟨data, h⟩
  have hcalls : ∀ c ∈ deliver chunks order, c ∈ chunks := fun c hc => by
    rcases mem_deliver.mp hc with ⟨i, _, hi⟩
    exact List.mem_of_getElem? hi
  have hevery := imported_deliver h horder
  rcases import_slots h hcalls with ⟨importer', results, heach, _, hreceived, htotal⟩
  refine ⟨importer', results, heach, ?_⟩
  have hcomplete := (h.isComplete_iff hcalls hreceived htotal).mpr ⟨?_, fun j hj i hij =>
    hevery i (Nat.lt_trans hij (h.imported_lt hcalls hj))⟩
  · rw [SnapshotImporter.finalize, if_pos hcomplete, hreceived, h.slots_eq hcalls hevery,
      chunks_flatten h.size_pos, deserialize, hcodec.deserialize_serialize h.serialized]
    rfl
  · intro hnone
    have hfirst := hevery 0 h.length_pos
    rw [hnone] at hfirst
    exact absurd hfirst List.not_mem_nil

/-- Shipping a snapshot replays the changes that were pending. -/
theorem next_ship (hcodec : codec.Lawful) {s : Shipping} {k : Nat} {order : List Nat}
    (harrives : Arrives env codec s (.ship k order))
    (hreplayable : ∀ change ∈ s.pending, change.Replayable) :
    (s.next env codec (.ship k order)).store = s.pending.foldl Change.replay s.store ∧
      (s.next env codec (.ship k order)).pending = [] := by
  rcases harrives with ⟨chunks, hexport, horder⟩
  rcases finalize_delivered hcodec hexport horder s.importer with
    ⟨importer, results, heach, hfinal⟩
  have hpending : (s.exporter.export (env k) codec).1.serializer.pendingChanges = [] := by
    simp only [SnapshotExporter.export]
    split <;> rfl
  simp only [Shipping.next, hexport, Shipping.receive, heach, hfinal]
  exact ⟨replayAll_groupChanges (env k) hreplayable s.store, hpending⟩

/-- So does shipping it in one buffer. -/
theorem next_shipBuffer (hcodec : codec.Lawful) {s : Shipping} {k : Nat}
    (harrives : Arrives env codec s (.shipBuffer k))
    (hreplayable : ∀ change ∈ s.pending, change.Replayable) :
    (s.next env codec (.shipBuffer k)).store = s.pending.foldl Change.replay s.store ∧
      (s.next env codec (.shipBuffer k)).pending = [] := by
  rcases harrives with ⟨data, hexport⟩
  have hserialize : codec.serialize (s.exporter.serializer.buildSnapshot (env k)).2 = .ok data := by
    simp only [SnapshotExporter.exportBuffer, serialize, Except.mapError] at hexport
    split at hexport
    · contradiction
    · next heq => exact heq.trans (congrArg Except.ok (Except.ok.inj hexport))
  have hback := hcodec.deserialize_serialize hserialize
  simp only [Shipping.next, hexport, Shipping.receiveBuffer, deserialize, hback, Except.mapError]
  exact ⟨replayAll_groupChanges (env k) hreplayable s.store, rfl⟩

/-! ## Runs of snapshots -/

/-- What was shipped, with the pending changes replayed behind it, is what all changes give. -/
structure Shipped (store : Store) (changes : List Change) (s : Shipping) : Prop where
  replayed : s.pending.foldl Change.replay s.store = changes.foldl Change.replay store
  replayable : ∀ change ∈ s.pending, change.Replayable

theorem shipped_start (config : SnapshotConfig) (store : Store) :
    Shipped store [] (Shipping.start config store) :=
  ⟨rfl, fun _ hchange => absurd hchange List.not_mem_nil⟩

/-- One event. -/
theorem Shipped.next (hcodec : codec.Lawful) {store : Store} {changes : List Change}
    {s : Shipping} (h : Shipped store changes s) {event : ShippingEvent}
    (hreplayable : ∀ change ∈ added [event], change.Replayable)
    (harrives : Arrives env codec s event) :
    Shipped store (changes ++ added [event]) (s.next env codec event) := by
  have hshipped : ∀ s' : Shipping, s'.store = s.pending.foldl Change.replay s.store ∧
      s'.pending = [] → Shipped store (changes ++ []) s' := by
    intro s' hs'
    rw [List.append_nil]
    refine ⟨?_, fun change hchange => ?_⟩
    · rw [hs'.2, List.foldl_nil, hs'.1]
      exact h.replayed
    · rw [hs'.2] at hchange
      exact absurd hchange List.not_mem_nil
  cases event with
  | add change =>
      refine ⟨?_, fun c hc => ?_⟩
      · change (s.pending ++ [change]).foldl Change.replay s.store = _
        rw [List.foldl_append, h.replayed, List.foldl_append]
        rfl
      · rcases List.mem_append.mp hc with hold | hnew
        · exact h.replayable c hold
        · exact hreplayable c hnew
  | ship k order => exact hshipped _ (next_ship hcodec harrives h.replayable)
  | shipBuffer k => exact hshipped _ (next_shipBuffer hcodec harrives h.replayable)

theorem added_append (events events' : List ShippingEvent) :
    added (events ++ events') = added events ++ added events' := by
  induction events with
  | nil => rfl
  | cons event events ih => cases event <;> simp [added, ih]

/-- A run. -/
theorem Shipped.run (hcodec : codec.Lawful) {store : Store} {changes : List Change}
    {s : Shipping} (h : Shipped store changes s) {events : List ShippingEvent}
    (hreplayable : ∀ change ∈ added events, change.Replayable)
    (harrives : (shipping env codec).Along (Arrives env codec) s events) :
    Shipped store (changes ++ added events) ((shipping env codec).run s events) := by
  induction events generalizing changes s with
  | nil =>
      rw [added, List.append_nil]
      exact h
  | cons event events ih =>
      rw [← List.singleton_append, added_append, List.forall_mem_append] at hreplayable
      rw [← List.singleton_append, added_append, ← List.append_assoc]
      exact ih (h.next hcodec hreplayable.1 harrives.1) hreplayable.2 harrives.2

/-- Changes are added of which a set has a value, a delete none, and every other one no key, and
snapshots of them are shipped at any points of a run: in chunks of which each arrives at least
once, in any order, or in one buffer.
The store at the other end, with what is pending replayed behind it, is the one that all changes
added so far give; and the next snapshot that is shipped leaves that store itself. -/
theorem shipping_replays (env : Nat → SnapshotEnv) (codec : SnapshotCodec) (hcodec : codec.Lawful)
    (config : SnapshotConfig) (store : Store) (events : List ShippingEvent)
    (hreplayable : ∀ change ∈ added events, change.Replayable)
    (harrives : (shipping env codec).Along (Arrives env codec) (.start config store) events) :
    ((shipping env codec).run (.start config store) events).pending.foldl Change.replay
        ((shipping env codec).run (.start config store) events).store =
      (added events).foldl Change.replay store ∧
    ∀ event, added [event] = [] →
      Arrives env codec ((shipping env codec).run (.start config store) events) event →
      ((shipping env codec).run (.start config store) (events ++ [event])).store =
        (added events).foldl Change.replay store := by
  have hrun := (shipped_start config store).run hcodec hreplayable harrives
  refine ⟨hrun.replayed, fun event hships hevent => ?_⟩
  rw [run_append]
  cases event with
  | add change => contradiction
  | ship k order => exact (next_ship hcodec hevent hrun.replayable).1.trans hrun.replayed
  | shipBuffer k => exact (next_shipBuffer hcodec hevent hrun.replayable).1.trans hrun.replayed

/-- The sample change in three chunks, which arrive backwards and one of them twice. -/
theorem shipping_replays_sample :
    ((shipping (fun _ => sampleEnv) sampleCodec).run
        (.start (SnapshotConfig.withChunkSize {} 32) fun _ _ => some [])
        [.add sampleChange, .ship 0 [2, 1, 2, 0]]).pending.foldl Change.replay
        ((shipping (fun _ => sampleEnv) sampleCodec).run
          (.start (SnapshotConfig.withChunkSize {} 32) fun _ _ => some [])
          [.add sampleChange, .ship 0 [2, 1, 2, 0]]).store =
      [sampleChange].foldl Change.replay (fun _ _ => some []) ∧
    ∀ event, added [event] = [] →
      Arrives (fun _ => sampleEnv) sampleCodec ((shipping (fun _ => sampleEnv) sampleCodec).run
        (.start (SnapshotConfig.withChunkSize {} 32) fun _ _ => some [])
        [.add sampleChange, .ship 0 [2, 1, 2, 0]]) event →
      ((shipping (fun _ => sampleEnv) sampleCodec).run
        (.start (SnapshotConfig.withChunkSize {} 32) fun _ _ => some [])
        ([.add sampleChange, .ship 0 [2, 1, 2, 0]] ++ [event])).store =
          [sampleChange].foldl Change.replay (fun _ _ => some []) := by
  refine shipping_replays (fun _ => sampleEnv) sampleCodec sampleCodec_lawful _ _
    [.add sampleChange, .ship 0 [2, 1, 2, 0]] ?_ ⟨trivial, ⟨sampleChunks, ?_, ?_⟩, trivial⟩
  · intro change hchange
    rw [List.mem_singleton.mp hchange]
    exact (Change.Made.delete ..).replayable
  · exact sampleExporter_export
  · decide

end IrohSync
