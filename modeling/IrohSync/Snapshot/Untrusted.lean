import IrohSync.Snapshot.Lossless

/-!
# Importing arbitrary chunks

Chunks may come from a peer that sends anything.  The number of the first chunk is
not compared with the total that it gives, so it may lie above the total or be too
large for any vector; and what the chunks assemble to is decoded and returned without
a look at its checksum.

Main results:

- Theorem {lit}`safe_import_iff`: exactly which sequences of chunks are imported
  safely.
- Theorem {lit}`received_assembled`: what an import puts together, in terms of the
  chunks.
- Theorem {lit}`integrity_iff`: exactly which imports deliver no corrupted snapshot.
-/

namespace IrohSync

open FileIo Slots

/-! ## Safety -/

/-- What is expected of one call: a chunk that is accepted lies below the total, there
are no more slots than the total, and a chunk that is refused changes nothing. -/
structure SafeCall (s : SnapshotImporter) (c : SnapshotChunk) (s' : SnapshotImporter)
    (result : Except IoError Unit) : Prop where
  accepted : result = .ok () → ∃ t, s'.totalChunks = some t ∧ c.sequence < t
  bounded : ∀ t, s'.totalChunks = some t → s'.receivedChunks.length ≤ t.toNat
  unchanged : result ≠ .ok () → s' = s

/-- No call panics and every call is as expected. -/
def SafeImport : SnapshotImporter → List SnapshotChunk → Prop
  | _, [] => True
  | s, c :: cs => ∃ s' result, s.importChunk c = some (s', result) ∧
      SafeCall s c s' result ∧ SafeImport s' cs

/-- The first chunk lies below the total it gives, and there is room for every chunk
below that total. -/
def WithinFirst : List SnapshotChunk → Prop
  | [] => True
  | first :: rest => first.sequence < first.total ∧
      ∀ c ∈ first :: rest, c.sequence < first.total → c.Fits

/-- An importer with a total that bounds its slots. -/
structure SnapshotImporter.Bounded (s : SnapshotImporter) (t : UInt64) : Prop where
  total : s.totalChunks = some t
  slots : s.receivedChunks.length ≤ t.toNat
  room : s.receivedChunks.length ≤ vecLimit 32

/-- A chunk that is placed below the total keeps the bounds. -/
theorem SnapshotImporter.Bounded.place {s : SnapshotImporter} {t : UInt64} {c : SnapshotChunk}
    (hslots : s.receivedChunks.length ≤ t.toNat) (hroom : s.receivedChunks.length ≤ vecLimit 32)
    (hlt : c.sequence < t) (hfits : c.Fits) :
    SnapshotImporter.Bounded
      { receivedChunks := Slots.place [] s.receivedChunks c.sequence.toNat c.data
        totalChunks := some t } t where
  total := rfl
  slots := by
    rw [place_length]
    exact Nat.max_le.mpr ⟨hslots, UInt64.lt_iff_toNat_lt.mp hlt⟩
  room := place_room hroom hfits

/-- A call that places a chunk is as expected exactly if the chunk lies below the total
and there is room for it. -/
theorem safeImport_placed {s : SnapshotImporter} {t : UInt64} {c : SnapshotChunk}
    (hslots : s.receivedChunks.length ≤ t.toNat) (hroom : s.receivedChunks.length ≤ vecLimit 32)
    (himport : s.importChunk c =
      SnapshotImporter.placeChunk { s with totalChunks := some t } c) (cs : List SnapshotChunk) :
    SafeImport s (c :: cs) ↔ c.sequence < t ∧ c.Fits ∧ SafeImport
      { receivedChunks := Slots.place [] s.receivedChunks c.sequence.toNat c.data
        totalChunks := some t } cs := by
  have hplace := placeChunk_eq (s := { s with totalChunks := some t }) hroom c
  rw [← himport] at hplace
  constructor
  · rintro ⟨s', result, himport', hsafe, hrest⟩
    by_cases hfits : c.Fits
    · rw [hplace.1 hfits, Option.some.injEq, Prod.mk.injEq] at himport'
      obtain ⟨rfl, rfl⟩ := himport'
      rcases hsafe.accepted rfl with ⟨t', ht', hlt⟩
      obtain rfl := Option.some.inj ht'
      exact ⟨hlt, hfits, hrest⟩
    · rw [hplace.2 hfits] at himport'
      contradiction
  · rintro ⟨hlt, hfits, hrest⟩
    have hnext := SnapshotImporter.Bounded.place hslots hroom hlt hfits
    refine ⟨_, _, hplace.1 hfits, ⟨fun _ => ⟨t, rfl, hlt⟩, fun t' ht' => ?_,
      fun hne => absurd rfl hne⟩, hrest⟩
    rw [hnext.total, Option.some.injEq] at ht'
    exact ht' ▸ hnext.slots

/-- A call that is refused is as expected. -/
theorem safeImport_refused {s : SnapshotImporter} {t : UInt64} (h : s.Bounded t)
    {c : SnapshotChunk} (himport : s.importChunk c = some (s, .error invalidChunk))
    (cs : List SnapshotChunk) : SafeImport s (c :: cs) ↔ SafeImport s cs := by
  constructor
  · rintro ⟨s', result, himport', _, hrest⟩
    rw [himport, Option.some.injEq, Prod.mk.injEq] at himport'
    obtain ⟨rfl, rfl⟩ := himport'
    exact hrest
  · intro hrest
    refine ⟨s, _, himport, ⟨nofun, fun t' ht' => ?_, fun _ => rfl⟩, hrest⟩
    rw [h.total, Option.some.injEq] at ht'
    exact ht' ▸ h.slots

/-- With a total that bounds the slots, exactly the sequences that need no more room
than a vector has are safe. -/
theorem safeImport_iff_fits {s : SnapshotImporter} {t : UInt64} (h : s.Bounded t)
    (cs : List SnapshotChunk) :
    SafeImport s cs ↔ ∀ c ∈ cs, c.sequence < t → c.Fits := by
  induction cs generalizing s with
  | nil => exact ⟨fun _ _ hc => absurd hc List.not_mem_nil, fun _ => trivial⟩
  | cons c cs ih =>
      rw [List.forall_mem_cons]
      rcases importChunk_cases s c cs with ⟨t', htotal, hle, himport, _⟩ |
        ⟨t', ⟨htotal, hlt⟩ | ⟨htotal, _⟩, himport, _⟩
      · obtain rfl := Option.some.inj (h.total.symm.trans htotal)
        have hnot : ¬ c.sequence < t := UInt64.not_lt.mpr hle
        rw [safeImport_refused h himport, ih h]
        exact ⟨fun hrest => ⟨fun hlt => absurd hlt hnot, hrest⟩, And.right⟩
      · obtain rfl := Option.some.inj (h.total.symm.trans htotal)
        rw [safeImport_placed h.slots h.room himport]
        constructor
        · rintro ⟨_, hfits, hrest⟩
          exact ⟨fun _ => hfits,
            (ih (SnapshotImporter.Bounded.place h.slots h.room hlt hfits)).mp hrest⟩
        · rintro ⟨hfits, hrest⟩
          exact ⟨hlt, hfits hlt,
            (ih (SnapshotImporter.Bounded.place h.slots h.room hlt (hfits hlt))).mpr hrest⟩
      · rw [h.total] at htotal
        contradiction

/-- Exactly which sequences of arbitrary chunks a new importer takes safely: those whose
first chunk lies below the total it gives and in which no chunk below that total needs
more room than a vector has. -/
theorem safe_import_iff (chunks : List SnapshotChunk) :
    SafeImport .new chunks ↔ WithinFirst chunks := by
  cases chunks with
  | nil => exact Iff.rfl
  | cons first rest =>
      have hslots : SnapshotImporter.new.receivedChunks.length ≤ first.total.toNat :=
        Nat.zero_le _
      have hroom : SnapshotImporter.new.receivedChunks.length ≤ vecLimit 32 := Nat.zero_le _
      rw [safeImport_placed hslots hroom rfl, WithinFirst, List.forall_mem_cons]
      constructor
      · rintro ⟨hlt, hfits, hrest⟩
        have hnext := SnapshotImporter.Bounded.place hslots hroom hlt hfits
        exact ⟨hlt, fun _ => hfits, (safeImport_iff_fits hnext rest).mp hrest⟩
      · rintro ⟨hlt, hfits, hrest⟩
        have hnext := SnapshotImporter.Bounded.place hslots hroom hlt (hfits hlt)
        exact ⟨hlt, hfits hlt, (safeImport_iff_fits hnext rest).mpr hrest⟩

/-- A chunk with a number above its own total. -/
def outsideChunk : SnapshotChunk where
  sequence := 5
  total := 1
  data := [1]
  isLast := true

/-- A chunk with the last number of all. -/
def hostileChunk : SnapshotChunk where
  sequence := 18446744073709551615
  total := 1
  data := [1]
  isLast := true

/-- A first chunk above its own total is accepted, and one with the last number makes
the importer panic. -/
theorem not_safe_import :
    ¬ SafeImport .new [outsideChunk] ∧ ¬ SafeImport .new [hostileChunk] ∧
      SnapshotImporter.new.importEach [hostileChunk] = none := by
  refine ⟨?_, ?_, by decide⟩
  · rintro ⟨s', result, himport, hsafe, _⟩
    have hcall : SnapshotImporter.new.importChunk outsideChunk =
        some (⟨[[], [], [], [], [], [1]], some 1⟩, .ok ()) := by
      decide
    rw [hcall, Option.some.injEq, Prod.mk.injEq] at himport
    obtain ⟨rfl, rfl⟩ := himport
    have hslots := hsafe.bounded 1 rfl
    exact absurd hslots (by decide)
  · rintro ⟨s', result, himport, _⟩
    have hcall : SnapshotImporter.new.importChunk hostileChunk = none := by decide
    rw [hcall] at himport
    contradiction

/-! ## Integrity -/

/-- What the accepted chunks leave in the slot with a number: the data of the last one
with this number, or nothing. -/
def slotData (chunks : List SnapshotChunk) (i : Nat) : Bytes :=
  heldAfter i [] (placements (accepted none chunks))

/-- The number of slots that the accepted chunks need. -/
def slotCount (chunks : List SnapshotChunk) : Nat :=
  extent (placements (accepted none chunks))

/-- The data of the slots one after the other. -/
def assembled (chunks : List SnapshotChunk) : Bytes :=
  (List.range (slotCount chunks)).flatMap (slotData chunks)

/-- There is a first chunk, and no slot below its total is empty. -/
def Gapless : List SnapshotChunk → Prop
  | [] => False
  | first :: rest => ∀ i < min first.total.toNat (slotCount (first :: rest)),
      slotData (first :: rest) i ≠ []

/-- The slots of an import are given by its chunks. -/
theorem received_assembled {chunks : List SnapshotChunk} {s : SnapshotImporter}
    {results : List (Except IoError Unit)}
    (himport : SnapshotImporter.new.importEach chunks = some (s, results)) :
    s.receivedChunks = (List.range (slotCount chunks)).map (slotData chunks) ∧
      s.totalChunks = chunks.head?.map SnapshotChunk.total := by
  have hfits : ∀ c ∈ accepted SnapshotImporter.new.totalChunks chunks, c.Fits := by
    by_contra hnot
    rw [(importEach_eq_none_iff (Nat.zero_le _)).mpr hnot] at himport
    contradiction
  rcases importEach_spec (Nat.zero_le _) hfits with ⟨s', results', himport', hreceived, htotal, _⟩
  rw [himport, Option.some.injEq, Prod.mk.injEq] at himport'
  obtain ⟨rfl, rfl⟩ := himport'
  refine ⟨?_, htotal⟩
  rw [hreceived]
  exact placeAll_nil_eq_map [] (placements (accepted none chunks))

/-- An import is complete exactly if its chunks leave no slot below the total empty. -/
theorem isComplete_iff_gapless {chunks : List SnapshotChunk} {s : SnapshotImporter}
    {results : List (Except IoError Unit)}
    (himport : SnapshotImporter.new.importEach chunks = some (s, results)) :
    s.isComplete = true ↔ Gapless chunks := by
  rcases received_assembled himport with ⟨hreceived, htotal⟩
  unfold SnapshotImporter.isComplete
  rw [htotal, hreceived]
  cases chunks with
  | nil => simp [Gapless]
  | cons first rest =>
      simp only [List.head?_cons, Option.map_some, Gapless, ← List.map_take, List.take_range,
        List.all_map, List.all_eq_true, List.mem_range, Function.comp_apply,
        Bool.not_eq_true', List.isEmpty_eq_false_iff]

theorem deserialize_eq_ok {codec : SnapshotCodec} {data : Bytes} {snapshot : DatabaseSnapshot} :
    deserialize codec data = .ok snapshot ↔ codec.deserialize data = .ok snapshot := by
  unfold deserialize
  cases codec.deserialize data <;> simp [Except.mapError]

/-- Finalizing a complete import decodes the assembled bytes. -/
theorem finalize_eq_ok {codec : SnapshotCodec} {chunks : List SnapshotChunk}
    {s : SnapshotImporter} {results : List (Except IoError Unit)}
    (himport : SnapshotImporter.new.importEach chunks = some (s, results))
    {snapshot : DatabaseSnapshot} :
    s.finalize codec = .ok snapshot ↔
      Gapless chunks ∧ codec.deserialize (assembled chunks) = .ok snapshot := by
  have hflatten : s.receivedChunks.flatten = assembled chunks := by
    rw [(received_assembled himport).1, assembled, List.flatMap_def]
  unfold SnapshotImporter.finalize
  by_cases hcomplete : s.isComplete = true
  · have hgapless := (isComplete_iff_gapless himport).mp hcomplete
    rw [if_pos hcomplete, hflatten, deserialize_eq_ok]
    exact ⟨fun h => ⟨hgapless, h⟩, And.right⟩
  · rw [if_neg hcomplete]
    exact ⟨nofun, fun h => absurd ((isComplete_iff_gapless himport).mpr h.1) hcomplete⟩

/-- Exactly which imports of arbitrary chunks deliver no corrupted snapshot: those that
leave a slot empty, and those whose assembled bytes do not decode to a snapshot whose
stored checksum is wrong. -/
theorem integrity_iff (env : SnapshotEnv) (codec : SnapshotCodec) (chunks : List SnapshotChunk)
    (s : SnapshotImporter) (results : List (Except IoError Unit))
    (himport : SnapshotImporter.new.importEach chunks = some (s, results)) :
    (∀ snapshot, s.finalize codec = .ok snapshot → snapshot.validate env = true) ↔
      ¬ Gapless chunks ∨ ∀ snapshot, codec.deserialize (assembled chunks) = .ok snapshot →
        snapshot.checksum = DatabaseSnapshot.calculateChecksum env snapshot.namespaces := by
  constructor
  · intro h
    by_cases hgapless : Gapless chunks
    · exact Or.inr fun snapshot hdecode =>
        validate_eq_true.mp (h snapshot ((finalize_eq_ok himport).mpr ⟨hgapless, hdecode⟩))
    · exact Or.inl hgapless
  · rintro hor snapshot hfinal
    rcases (finalize_eq_ok himport).mp hfinal with ⟨hgapless, hdecode⟩
    rcases hor with hnot | hchecksum
    · exact absurd hgapless hnot
    · exact validate_eq_true.mpr (hchecksum snapshot hdecode)

/-- The bytes of the sample with another checksum, in one chunk. -/
def forgedChunk : SnapshotChunk where
  sequence := 0
  total := 1
  data := forgedData
  isLast := true

/-- An importer that was given the forged chunk. -/
def forgedImporter : SnapshotImporter where
  receivedChunks := [forgedData]
  totalChunks := some 1

/-- The criterion for the forged chunk. -/
theorem integrity_iff_sample :
    (∀ snapshot, forgedImporter.finalize sampleCodec = .ok snapshot →
        snapshot.validate sampleEnv = true) ↔
      ¬ Gapless [forgedChunk] ∨ ∀ snapshot,
        sampleCodec.deserialize (assembled [forgedChunk]) = .ok snapshot →
          snapshot.checksum =
            DatabaseSnapshot.calculateChecksum sampleEnv snapshot.namespaces :=
  integrity_iff sampleEnv sampleCodec [forgedChunk] forgedImporter [.ok ()] rfl

/-- The forged chunk is delivered as a snapshot that is not valid. -/
theorem not_integrity_forged :
    SnapshotImporter.new.importEach [forgedChunk] = some (forgedImporter, [.ok ()]) ∧
      ¬ ∀ snapshot, forgedImporter.finalize sampleCodec = .ok snapshot →
        snapshot.validate sampleEnv = true := by
  refine ⟨rfl, fun h => ?_⟩
  have hvalid := h forgedSnapshot rfl
  exact absurd hvalid (by decide)

end IrohSync
