import IrohSync.Snapshot.Lossless

/-!
# What becomes of the changes of an export

An export takes the pending changes out of the serializer before it encodes their snapshot
and before it divides by the size of the chunks.  A call that fails after that does not put
them back.

Main results:

- Theorem {lit}`export_pending`: no export leaves a change pending.
- Theorem {lit}`makeChunks_ne_none_iff`: exactly when cutting data into chunks does not panic.
- Theorem {lit}`deliversOrKeeps_iff`: exactly when an export delivers or keeps the changes.
-/

namespace IrohSync

open FileIo Chunks

/-- No export leaves a change pending. -/
theorem export_pending (env : SnapshotEnv) (codec : SnapshotCodec) (e : SnapshotExporter) :
    (e.export env codec).1.serializer.pendingChanges = [] := by
  simp only [SnapshotExporter.export]
  split
  · rfl
  · rfl

/-- The chunks that data is cut into hold it. -/
theorem makeChunks_flatten {chunkSize : Nat} {data : Bytes} {chunks : List SnapshotChunk}
    (h : makeChunks chunkSize data = some chunks) :
    (chunks.map SnapshotChunk.data).flatten = data := by
  rcases makeChunks_eq_some_iff.mp h with ⟨hfits, hcut⟩
  calc (chunks.map SnapshotChunk.data).flatten
    _ = (Chunks.chunks chunkSize data).flatten := by
        rw [← hcut, List.map_map]
        rfl
    _ = data := chunks_flatten (Nat.pos_of_ne_zero hfits.1) data

/-- Cutting data into chunks returns exactly if these have a size and there are not too
many. -/
theorem makeChunks_ne_none_iff {chunkSize : Nat} {data : Bytes} :
    makeChunks chunkSize data ≠ none ↔
      chunkSize ≠ 0 ∧ divCeil data.length chunkSize ≤ vecLimit 56 := by
  rw [Option.ne_none_iff_exists']
  constructor
  · intro hsome
    rcases hsome with ⟨chunks, hchunks⟩
    exact (makeChunks_eq_some_iff.mp hchunks).1
  · intro hfits
    exact ⟨_, makeChunks_eq_some_iff.mpr ⟨hfits, rfl⟩⟩

/-- A call did not panic, and it returned chunks that hold the encoded snapshot of all
pending changes or left these pending. -/
structure DeliversOrKeeps (env : SnapshotEnv) (codec : SnapshotCodec) (e : SnapshotExporter) :
    Prop where
  returns : (e.export env codec).2 ≠ none
  kept : (∃ chunks data, (e.export env codec).2 = some (.ok chunks) ∧
      codec.serialize (e.serializer.buildSnapshot env).2 = .ok data ∧
      (chunks.map SnapshotChunk.data).flatten = data) ∨
    (e.export env codec).1.serializer.pendingChanges = e.serializer.pendingChanges

/-- Chunks have a size and a vector has room for those of the encoded snapshot; and a
snapshot that cannot be encoded is one of no changes. -/
structure Exportable (env : SnapshotEnv) (codec : SnapshotCodec) (e : SnapshotExporter) :
    Prop where
  fits : ∀ data, codec.serialize (e.serializer.buildSnapshot env).2 = .ok data →
    e.config.chunkSize.toNat ≠ 0 ∧
      divCeil data.length e.config.chunkSize.toNat ≤ vecLimit 56
  encoded : ∀ message, codec.serialize (e.serializer.buildSnapshot env).2 = .error message →
    e.serializer.pendingChanges = []

/-- An export whose snapshot cannot be encoded returns the error, and it keeps the pending
changes exactly if there are none. -/
theorem deliversOrKeeps_of_error {env : SnapshotEnv} {codec : SnapshotCodec}
    {e : SnapshotExporter} {message : String}
    (hencode : codec.serialize (e.serializer.buildSnapshot env).2 = .error message) :
    DeliversOrKeeps env codec e ↔ e.serializer.pendingChanges = [] := by
  have hresult := export_error hencode
  constructor
  · intro h
    rcases h.kept with hdelivered | hkept
    · rcases hdelivered with ⟨chunks, data, hok, _⟩
      rw [hresult] at hok
      cases hok
    · rw [← hkept, export_pending]
  · intro hempty
    refine ⟨?_, Or.inr ?_⟩
    · rw [hresult]
      exact Option.some_ne_none _
    · rw [export_pending, hempty]

/-- An export whose snapshot is encoded delivers the pending changes exactly if the data can
be cut into chunks. -/
theorem deliversOrKeeps_of_ok {env : SnapshotEnv} {codec : SnapshotCodec}
    {e : SnapshotExporter} {data : Bytes}
    (hencode : codec.serialize (e.serializer.buildSnapshot env).2 = .ok data) :
    DeliversOrKeeps env codec e ↔ makeChunks e.config.chunkSize.toNat data ≠ none := by
  have hresult := export_ok hencode
  have hreturns : (e.export env codec).2 ≠ none ↔
      makeChunks e.config.chunkSize.toNat data ≠ none := by
    rw [hresult, ne_eq, ne_eq, Option.map_eq_none_iff]
  constructor
  · intro h
    exact hreturns.mp h.returns
  · intro hcut
    refine ⟨hreturns.mpr hcut, Or.inl ?_⟩
    rcases Option.ne_none_iff_exists'.mp hcut with ⟨chunks, hchunks⟩
    refine ⟨chunks, data, ?_, hencode, makeChunks_flatten hchunks⟩
    rw [hresult, hchunks]
    rfl

/-- An export delivers the pending changes or keeps them exactly if the configuration and
the changes can be exported. -/
theorem deliversOrKeeps_iff (env : SnapshotEnv) (codec : SnapshotCodec) (e : SnapshotExporter) :
    DeliversOrKeeps env codec e ↔ Exportable env codec e := by
  cases hencode : codec.serialize (e.serializer.buildSnapshot env).2 with
  | error message =>
      rw [deliversOrKeeps_of_error hencode]
      constructor
      · intro hempty
        refine ⟨fun data hdata => ?_, fun _ _ => hempty⟩
        rw [hencode] at hdata
        contradiction
      · intro h
        exact h.encoded message hencode
  | ok data =>
      rw [deliversOrKeeps_of_ok hencode, makeChunks_ne_none_iff]
      constructor
      · intro hfits
        refine ⟨fun data' hdata' => ?_, fun message herror => ?_⟩
        · rw [hencode] at hdata'
          rw [← Except.ok.inj hdata']
          exact hfits
        · rw [hencode] at herror
          contradiction
      · intro h
        exact h.fits data hencode

/-- The exporter of the sample with chunks of size zero. -/
def zeroExporter : SnapshotExporter :=
  (SnapshotExporter.new (SnapshotConfig.withChunkSize {} 0)).addChange sampleChange

/-- Its export panics, and its pending change is lost. -/
theorem not_deliversOrKeeps_zero :
    ¬ DeliversOrKeeps sampleEnv sampleCodec zeroExporter ∧
      (zeroExporter.export sampleEnv sampleCodec).1.serializer.pendingChanges = [] := by
  have hbuild : (zeroExporter.serializer.buildSnapshot sampleEnv).2 = sampleSnapshot :=
    sampleExporter_build
  have hencode : sampleCodec.serialize (zeroExporter.serializer.buildSnapshot sampleEnv).2 =
      .ok sampleData := by
    rw [hbuild]
    rfl
  refine ⟨fun h => h.returns ?_, export_pending sampleEnv sampleCodec zeroExporter⟩
  rw [export_ok hencode]
  rfl

end IrohSync
