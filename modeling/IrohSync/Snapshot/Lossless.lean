import IrohSync.Snapshot.Transfer

/-!
# Importing the chunks of an export

The chunks of one export, imported in any order and with any repeats, give the
snapshot back.  An import counts as complete as soon as no slot up to the largest
number received is empty, so a proper beginning of the chunks does as well.

Main results:

- Theorem {lit}`import_slots`: the slots after importing chunks of an export.
- Theorem {lit}`transfer_lossless`: importing all chunks.
- Theorem {lit}`complete_exact_iff`: exactly when completeness is exact.
-/

namespace IrohSync

open FileIo Chunks Slots

/-! ## The chunks of an export -/

/-- Chunks that number a cut of some data into pieces of a size. -/
structure WellCut (chunkSize : Nat) (chunks : List SnapshotChunk) : Prop where
  total : ∀ c ∈ chunks, c.total.toNat = chunks.length
  sequence : chunks.map (fun c => c.sequence.toNat) = List.range chunks.length
  size : ∀ c ∈ chunks, c.data ≠ [] ∧ c.data.length ≤ chunkSize
  last : ∀ c ∈ chunks, c.isLast = true ↔ c.sequence.toNat + 1 = chunks.length

/-- The data of an export, not empty, whose chunks fit into a vector. -/
structure Exported (codec : SnapshotCodec) (snapshot : DatabaseSnapshot) (chunkSize : Nat)
    (data : Bytes) (chunks : List SnapshotChunk) : Prop where
  serialized : codec.serialize snapshot = .ok data
  ne_nil : data ≠ []
  size_pos : 0 < chunkSize
  count_le : divCeil data.length chunkSize ≤ vecLimit 56
  chunks_eq : chunks =
    (List.range (divCeil data.length chunkSize)).map (makeChunk chunkSize data)

/-- What it means that an export returned chunks. -/
theorem exported_of_export {env : SnapshotEnv} {codec : SnapshotCodec} (hcodec : codec.Lawful)
    {exporter : SnapshotExporter} {chunks : List SnapshotChunk}
    (hexport : (exporter.export env codec).2 = some (.ok chunks)) :
    ∃ data, Exported codec (exporter.serializer.buildSnapshot env).2
      exporter.config.chunkSize.toNat data chunks := by
  cases hdata : codec.serialize (exporter.serializer.buildSnapshot env).2 with
  | error e =>
      rw [export_error hdata] at hexport
      cases hexport
  | ok data =>
      rw [export_ok hdata] at hexport
      rcases Option.map_eq_some_iff.mp hexport with ⟨cut, hchunks, hcut⟩
      obtain rfl := Except.ok.inj hcut
      rcases makeChunks_eq_some_iff.mp hchunks with ⟨hfits, hcut⟩
      exact ⟨data, hdata, hcodec.serialize_ne_nil hdata, Nat.pos_of_ne_zero hfits.1, hfits.2,
        hcut.symm⟩

section

variable {codec : SnapshotCodec} {snapshot : DatabaseSnapshot} {chunkSize : Nat} {data : Bytes}
  {chunks calls : List SnapshotChunk}

theorem Exported.length_eq (h : Exported codec snapshot chunkSize data chunks) :
    chunks.length = divCeil data.length chunkSize := by
  rw [h.chunks_eq, List.length_map, List.length_range]

theorem Exported.length_pos (h : Exported codec snapshot chunkSize data chunks) :
    0 < chunks.length := by
  rw [h.length_eq]
  exact divCeil_pos h.size_pos (List.length_pos_iff.mpr h.ne_nil)

/-- There are fewer chunks than slots of a vector and than 64-bit numbers. -/
theorem Exported.length_lt (h : Exported codec snapshot chunkSize data chunks) :
    chunks.length < vecLimit 32 ∧ chunks.length < 2 ^ 64 := by
  have hle := h.count_le
  rw [← h.length_eq] at hle
  have hlimits : vecLimit 56 < vecLimit 32 ∧ vecLimit 56 < 2 ^ 64 := by decide
  exact ⟨Nat.lt_of_le_of_lt hle hlimits.1, Nat.lt_of_le_of_lt hle hlimits.2⟩

/-- Every chunk of an export is the one at its number. -/
theorem Exported.mem_iff (h : Exported codec snapshot chunkSize data chunks)
    {c : SnapshotChunk} :
    c ∈ chunks ↔ c.sequence.toNat < chunks.length ∧
      c = makeChunk chunkSize data c.sequence.toNat := by
  have hlt := h.length_lt.2
  rw [h.length_eq] at hlt
  rw [h.length_eq, h.chunks_eq, List.mem_map]
  constructor
  · rintro ⟨i, hi, rfl⟩
    have hi' := List.mem_range.mp hi
    have hnumber : (makeChunk chunkSize data i).sequence.toNat = i :=
      UInt64.toNat_ofNat_of_lt' (Nat.lt_trans hi' hlt)
    rw [hnumber]
    exact ⟨hi', rfl⟩
  · rintro ⟨hi, hc⟩
    exact ⟨c.sequence.toNat, List.mem_range.mpr hi, hc.symm⟩

/-- The total of every chunk is the number of chunks. -/
theorem Exported.total_eq (h : Exported codec snapshot chunkSize data chunks)
    {c : SnapshotChunk} (hc : c ∈ chunks) : c.total = UInt64.ofNat chunks.length := by
  rw [(h.mem_iff.mp hc).2, h.length_eq]
  rfl

/-- The chunks of an export are well cut. -/
theorem Exported.wellCut (h : Exported codec snapshot chunkSize data chunks) :
    WellCut chunkSize chunks where
  total := by
    intro c hc
    rw [h.total_eq hc, UInt64.toNat_ofNat_of_lt' h.length_lt.2]
  sequence := by
    rw [h.length_eq, h.chunks_eq, List.map_map]
    conv_rhs => rw [← List.map_id (List.range (divCeil data.length chunkSize))]
    apply List.map_congr_left
    intro i hi
    have hlt := h.length_lt.2
    rw [h.length_eq] at hlt
    exact UInt64.toNat_ofNat_of_lt' (Nat.lt_trans (List.mem_range.mp hi) hlt)
  size := by
    intro c hc
    rcases h.mem_iff.mp hc with ⟨hi, heq⟩
    rw [h.length_eq] at hi
    rw [heq]
    exact ⟨chunk_ne_nil h.size_pos hi, chunk_length_le chunkSize data _⟩
  last := by
    intro c hc
    rcases h.mem_iff.mp hc with ⟨hi, heq⟩
    have hpos := h.length_pos
    have hlast : c.isLast = decide (c.sequence.toNat = divCeil data.length chunkSize - 1) :=
      congrArg SnapshotChunk.isLast heq
    rw [hlast, decide_eq_true_iff, ← h.length_eq]
    omega

/-! ## Importing them -/

/-- The numbers of the chunks that were imported. -/
def imported (calls : List SnapshotChunk) : List Nat :=
  calls.map fun c => c.sequence.toNat

theorem map_fst_placements (calls : List SnapshotChunk) :
    (placements calls).map Prod.fst = imported calls := by
  rw [placements, List.map_map]
  rfl

theorem Exported.imported_lt (h : Exported codec snapshot chunkSize data chunks)
    (hcalls : ∀ c ∈ calls, c ∈ chunks) {i : Nat} (hi : i ∈ imported calls) :
    i < chunks.length := by
  rcases List.mem_map.mp hi with ⟨c, hc, rfl⟩
  exact (h.mem_iff.mp (hcalls c hc)).1

/-- Chunks of one export are all accepted. -/
theorem Exported.accepted_eq (h : Exported codec snapshot chunkSize data chunks)
    (hcalls : ∀ c ∈ calls, c ∈ chunks) : accepted none calls = calls := by
  cases calls with
  | nil => rfl
  | cons first rest =>
      have hfirst := h.total_eq (hcalls first List.mem_cons_self)
      rw [accepted, List.filter_eq_self.mpr]
      intro c hc
      have hlt := (h.mem_iff.mp (hcalls c (List.mem_cons_of_mem _ hc))).1
      rw [decide_eq_true_iff, hfirst, UInt64.lt_iff_toNat_lt,
        UInt64.toNat_ofNat_of_lt' h.length_lt.2]
      exact hlt

/-- What is placed for chunks of one export: the piece of the data at each number. -/
theorem Exported.placements (h : Exported codec snapshot chunkSize data chunks)
    (hcalls : ∀ c ∈ calls, c ∈ chunks) :
    ∀ p ∈ placements calls, p.2 = chunk chunkSize data p.1 ∧ p.1 < chunks.length ∧ p.2 ≠ [] := by
  intro p hp
  rcases List.mem_map.mp hp with ⟨c, hc, rfl⟩
  rcases h.mem_iff.mp (hcalls c hc) with ⟨hlt, heq⟩
  exact ⟨congrArg SnapshotChunk.data heq, hlt, (h.wellCut.size c (hcalls c hc)).1⟩

/-- Importing chunks of one export never panics and every call returns without an
error; the slots are those of the chunks, and the total is their number. -/
theorem import_slots (h : Exported codec snapshot chunkSize data chunks)
    (hcalls : ∀ c ∈ calls, c ∈ chunks) :
    ∃ s results, SnapshotImporter.new.importEach calls = some (s, results) ∧
      (∀ r ∈ results, r = .ok ()) ∧
      s.receivedChunks = placeAll [] [] (IrohSync.placements calls) ∧
      s.totalChunks = calls.head?.map fun _ => UInt64.ofNat chunks.length := by
  have haccepted := h.accepted_eq hcalls
  have hfits : ∀ c ∈ accepted SnapshotImporter.new.totalChunks calls, c.Fits := by
    intro c hc
    have hmem := hcalls c ((accepted_sublist _ _).subset hc)
    exact Nat.lt_trans (h.mem_iff.mp hmem).1 h.length_lt.1
  rcases importEach_spec (Nat.zero_le _) hfits with ⟨s, results, heach, hreceived, htotal, hok⟩
  refine ⟨s, results, heach, hok haccepted, ?_, ?_⟩
  · rw [hreceived]
    exact congrArg (fun cs => placeAll [] [] (IrohSync.placements cs)) haccepted
  · rw [htotal]
    cases calls with
    | nil => rfl
    | cons first rest => exact congrArg some (h.total_eq (hcalls first List.mem_cons_self))

/-- After importing chunks of one export all slots lie below the total. -/
theorem Exported.extent_le (h : Exported codec snapshot chunkSize data chunks)
    (hcalls : ∀ c ∈ calls, c ∈ chunks) : extent (IrohSync.placements calls) ≤ chunks.length :=
  extent_le_iff.mpr fun p hp => (h.placements hcalls p hp).2.1

/-- An import of chunks of one export counts as complete exactly if there are any and
no number below an imported one is missing. -/
theorem Exported.isComplete_iff (h : Exported codec snapshot chunkSize data chunks)
    (hcalls : ∀ c ∈ calls, c ∈ chunks) {s : SnapshotImporter}
    (hreceived : s.receivedChunks = placeAll [] [] (IrohSync.placements calls))
    (htotal : s.totalChunks = calls.head?.map fun _ => UInt64.ofNat chunks.length) :
    s.isComplete = true ↔
      calls ≠ [] ∧ ∀ j ∈ imported calls, ∀ i < j, i ∈ imported calls := by
  unfold SnapshotImporter.isComplete
  cases calls with
  | nil =>
      rw [htotal]
      simp
  | cons first rest =>
      have hall : s.receivedChunks.take (UInt64.ofNat chunks.length).toNat = s.receivedChunks := by
        apply List.take_of_length_le
        rw [UInt64.toNat_ofNat_of_lt' h.length_lt.2, hreceived, placeAll_length]
        exact Nat.max_le.mpr ⟨Nat.zero_le _, h.extent_le hcalls⟩
      have hfilled := filled_iff (fun p hp => (h.placements hcalls p hp).1)
        (fun p hp => (h.placements hcalls p hp).2.2)
      rw [map_fst_placements, ← hreceived] at hfilled
      rw [htotal]
      simp only [List.head?_cons, Option.map_some, hall]
      rw [List.all_eq_true, ← hfilled]
      simp

/-- With every number imported the slots are the pieces of the data in order. -/
theorem Exported.slots_eq (h : Exported codec snapshot chunkSize data chunks)
    (hcalls : ∀ c ∈ calls, c ∈ chunks) (hall : ∀ i < chunks.length, i ∈ imported calls) :
    placeAll [] [] (IrohSync.placements calls) = Chunks.chunks chunkSize data := by
  rw [placeAll_eq_map (fun p hp => (h.placements hcalls p hp).1)
    (fun p hp => (h.placements hcalls p hp).2.1) (by rwa [map_fst_placements]), h.length_eq]
  rfl

end

/-! ## A sample export -/

/-- A clock that stands still, the hasher of the standard library on the writes for one
entry of one database, and maps that are traversed in the order of insertion. -/
def sampleEnv : SnapshotEnv where
  clock := fun _ => 1700000000
  hash := fun feed =>
    if feed = [.bytes [0x6e], .bytes [0x64], .usize 1] then 8522553916022444300 else 0
  traverse := fun _ _ entries => entries
  traverse_perm := fun _ _ _ => List.Perm.refl _

/-- The snapshot of one small delete change. -/
def sampleSnapshot : DatabaseSnapshot where
  version := 1
  timestampSecs := 1700000000
  namespaces := [{ name := "n", databases := [{ name := "d", entries := [
    { key := some [7], value := none, timestampSecs := 1700000000 }], schemas := [] }] }]
  checksum := 8522553916022444300

/-- The bytes of the sample in front of its checksum. -/
def sampleFront : Bytes :=
  [1, 0, 0, 0, 0, 241, 83, 101, 0, 0, 0, 0, 1, 0, 0, 0, 0, 0, 0, 0, 1, 0, 0, 0, 0, 0, 0, 0, 110,
    1, 0, 0, 0, 0, 0, 0, 0, 1, 0, 0, 0, 0, 0, 0, 0, 100, 1, 0, 0, 0, 0, 0, 0, 0, 1, 1, 0, 0, 0, 0,
    0, 0, 0, 7, 0, 0, 241, 83, 101, 0, 0, 0, 0, 0, 0, 0, 0, 0, 0, 0, 0]

/-- The bytes of the sample. -/
def sampleData : Bytes :=
  sampleFront ++ [12, 209, 161, 215, 161, 49, 70, 118]

/-- The bytes of the sample with another checksum. -/
def forgedData : Bytes :=
  sampleFront ++ [13, 209, 161, 215, 161, 49, 70, 118]

/-- The sample with another checksum. -/
def forgedSnapshot : DatabaseSnapshot :=
  { sampleSnapshot with checksum := 8522553916022444301 }

/-- The encoding of the sample, and what its bytes and the forged ones decode to. -/
def sampleCodec : SnapshotCodec where
  serialize := fun s => if s = sampleSnapshot then .ok sampleData else .error "not the sample"
  deserialize := fun data =>
    if data = sampleData then .ok sampleSnapshot
    else if data = forgedData then .ok forgedSnapshot
    else .error "not the bytes of a sample"

theorem sampleCodec_lawful : sampleCodec.Lawful where
  deserialize_serialize := by
    intro snapshot data h
    simp only [sampleCodec] at h ⊢
    split_ifs at h with hsnapshot
    rw [if_pos (Except.ok.inj h).symm, hsnapshot]
  serialize_ne_nil := by
    intro snapshot data h
    simp only [sampleCodec] at h
    split_ifs at h
    rw [← Except.ok.inj h]
    exact List.cons_ne_nil _ _

/-- An exporter of chunks of 32 bytes with one pending change. -/
def sampleExporter : SnapshotExporter :=
  (SnapshotExporter.new (SnapshotConfig.withChunkSize {} 32)).addChange sampleChange

/-- The chunks of the sample. -/
def sampleChunks : List SnapshotChunk :=
  (List.range 3).map (makeChunk 32 sampleData)

set_option maxRecDepth 4000 in
theorem sampleExporter_build :
    (sampleExporter.serializer.buildSnapshot sampleEnv).2 = sampleSnapshot := by
  decide

theorem sampleExporter_export :
    (sampleExporter.export sampleEnv sampleCodec).2 = some (.ok sampleChunks) := by
  have hdata : sampleCodec.serialize (sampleExporter.serializer.buildSnapshot sampleEnv).2 =
      .ok sampleData := by
    rw [sampleExporter_build]
    rfl
  rw [export_ok hdata]
  rfl

/-! ## Importing every chunk -/

/-- Once every chunk of an export was imported by a new or reset importer, in any order
and with any repeats, every call has returned without an error, the import is complete,
and finalizing it gives the exported snapshot; and the chunks of an export are well
cut. -/
theorem transfer_lossless (env : SnapshotEnv) (codec : SnapshotCodec) (hcodec : codec.Lawful)
    (exporter : SnapshotExporter) (chunks : List SnapshotChunk)
    (hexport : (exporter.export env codec).2 = some (.ok chunks)) :
    WellCut exporter.config.chunkSize.toNat chunks ∧
      ∀ importer, (importer = .new ∨ ∃ used, importer = SnapshotImporter.reset used) →
        ∀ calls, (∀ c ∈ calls, c ∈ chunks) → (∀ c ∈ chunks, c ∈ calls) →
          ∃ s results, importer.importEach calls = some (s, results) ∧
            (∀ r ∈ results, r = .ok ()) ∧ s.isComplete = true ∧
            s.finalize codec = .ok (exporter.serializer.buildSnapshot env).2 := by
  rcases exported_of_export hcodec hexport with ⟨data, h⟩
  refine ⟨h.wellCut, fun importer himporter calls hcalls hall => ?_⟩
  have hnew : importer = .new := by
    rcases himporter with hnew | ⟨used, hreset⟩
    · exact hnew
    · exact hreset
  rcases import_slots h hcalls with ⟨s, results, heach, hok, hreceived, htotal⟩
  have hevery : ∀ i < chunks.length, i ∈ imported calls := by
    intro i hi
    have hmem : i ∈ imported chunks := by
      rw [imported, h.wellCut.sequence]
      exact List.mem_range.mpr hi
    rcases List.mem_map.mp hmem with ⟨c, hc, rfl⟩
    exact List.mem_map.mpr ⟨c, hall c hc, rfl⟩
  have hne : calls ≠ [] := by
    rintro rfl
    exact absurd (hevery 0 h.length_pos) List.not_mem_nil
  have hcomplete : s.isComplete = true := (h.isComplete_iff hcalls hreceived htotal).mpr
    ⟨hne, fun j hj i hij => hevery i (Nat.lt_trans hij (h.imported_lt hcalls hj))⟩
  refine ⟨s, results, hnew ▸ heach, hok, hcomplete, ?_⟩
  rw [SnapshotImporter.finalize, if_pos hcomplete, hreceived, h.slots_eq hcalls hevery,
    chunks_flatten h.size_pos, deserialize, hcodec.deserialize_serialize h.serialized]
  rfl

/-- The three chunks of the sample, imported by a new importer in any order and with
any repeats. -/
theorem transfer_lossless_sample :
    WellCut sampleExporter.config.chunkSize.toNat sampleChunks ∧
      ∀ importer, (importer = .new ∨ ∃ used, importer = SnapshotImporter.reset used) →
        ∀ calls, (∀ c ∈ calls, c ∈ sampleChunks) → (∀ c ∈ sampleChunks, c ∈ calls) →
          ∃ s results, importer.importEach calls = some (s, results) ∧
            (∀ r ∈ results, r = .ok ()) ∧ s.isComplete = true ∧
            s.finalize sampleCodec =
              .ok (sampleExporter.serializer.buildSnapshot sampleEnv).2 :=
  transfer_lossless sampleEnv sampleCodec sampleCodec_lawful sampleExporter sampleChunks
    sampleExporter_export

/-! ## Completeness -/

/-- An import is complete exactly if every number was imported, and finalizing it in
any other state is refused. -/
structure ExactlyComplete (codec : SnapshotCodec) (chunks calls : List SnapshotChunk)
    (s : SnapshotImporter) : Prop where
  complete : s.isComplete = true ↔ ∀ i < chunks.length, i ∈ imported calls
  refused : (¬ ∀ i < chunks.length, i ∈ imported calls) → s.finalize codec = .error incomplete

/-- No chunk was imported, or all of them, or one below an imported one is missing. -/
def NoneAllOrGap (chunks calls : List SnapshotChunk) : Prop :=
  calls = [] ∨ (∀ i < chunks.length, i ∈ imported calls) ∨
    ∃ i, i ∉ imported calls ∧ ∃ j ∈ imported calls, i < j

/-- Finalizing is refused in all states that do not count as complete. -/
theorem exactlyComplete_iff {codec : SnapshotCodec} {chunks calls : List SnapshotChunk}
    {s : SnapshotImporter} : ExactlyComplete codec chunks calls s ↔
      (s.isComplete = true ↔ ∀ i < chunks.length, i ∈ imported calls) := by
  refine ⟨fun h => h.complete, fun h => ⟨h, fun hnot => ?_⟩⟩
  rw [SnapshotImporter.finalize, if_neg (h.not.mpr hnot)]

/-- Whatever chunks of an export are imported by a new importer, in any order and with
any repeats: completeness is exact if and only if no chunk was imported, or all of
them, or one below an imported one is missing. -/
theorem complete_exact_iff (env : SnapshotEnv) (codec : SnapshotCodec) (hcodec : codec.Lawful)
    (exporter : SnapshotExporter) (chunks : List SnapshotChunk)
    (hexport : (exporter.export env codec).2 = some (.ok chunks)) (calls : List SnapshotChunk)
    (hcalls : ∀ c ∈ calls, c ∈ chunks) :
    ∃ s results, SnapshotImporter.new.importEach calls = some (s, results) ∧
      (ExactlyComplete codec chunks calls s ↔ NoneAllOrGap chunks calls) := by
  rcases exported_of_export hcodec hexport with ⟨data, h⟩
  rcases import_slots h hcalls with ⟨s, results, heach, _, hreceived, htotal⟩
  have hpos := h.length_pos
  refine ⟨s, results, heach, ?_⟩
  rw [exactlyComplete_iff, h.isComplete_iff hcalls hreceived htotal]
  constructor
  · intro hexact
    by_cases hnone : calls = []
    · exact Or.inl hnone
    · by_cases hall : ∀ i < chunks.length, i ∈ imported calls
      · exact Or.inr (Or.inl hall)
      · -- not complete, so that a number below another one is missing
        refine Or.inr (Or.inr ?_)
        by_contra hgap
        push Not at hgap
        apply hall (hexact.mp ⟨hnone, fun j hj i hij => ?_⟩)
        by_contra hmissing
        exact absurd hij (Nat.not_lt.mpr (hgap i hmissing j hj))
  · rintro (rfl | hall | ⟨i, hmissing, j, hj, hij⟩)
    · exact ⟨fun hcalled => absurd rfl hcalled.1, fun hall =>
        absurd (hall 0 hpos) List.not_mem_nil⟩
    · refine ⟨fun _ => hall, fun _ => ⟨?_, fun j hj i hij =>
        hall i (Nat.lt_trans hij (h.imported_lt hcalls hj))⟩⟩
      rintro rfl
      exact absurd (hall 0 hpos) List.not_mem_nil
    · exact ⟨fun hfilled => absurd (hfilled.2 j hj i hij) hmissing, fun hall =>
        absurd (hall i (Nat.lt_trans hij (h.imported_lt hcalls hj))) hmissing⟩

/-- The first two chunks of the sample without the third. -/
theorem complete_exact_iff_sample :
    ∃ s results, SnapshotImporter.new.importEach (sampleChunks.take 2) = some (s, results) ∧
      (ExactlyComplete sampleCodec sampleChunks (sampleChunks.take 2) s ↔
        NoneAllOrGap sampleChunks (sampleChunks.take 2)) :=
  complete_exact_iff sampleEnv sampleCodec sampleCodec_lawful sampleExporter sampleChunks
    sampleExporter_export (sampleChunks.take 2) fun _ hc => List.mem_of_mem_take hc

/-- The first of the three chunks of the sample alone counts as a complete import. -/
theorem not_complete_exact_first :
    (sampleExporter.export sampleEnv sampleCodec).2 = some (.ok sampleChunks) ∧
      ∃ s results, SnapshotImporter.new.importEach (sampleChunks.take 1) = some (s, results) ∧
        ¬ ExactlyComplete sampleCodec sampleChunks (sampleChunks.take 1) s := by
  refine ⟨sampleExporter_export, _, _, rfl, fun h => ?_⟩
  have hall := h.complete.mp rfl 1 (by decide)
  exact absurd hall (by decide)

end IrohSync
