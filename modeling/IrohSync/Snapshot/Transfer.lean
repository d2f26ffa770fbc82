import Mathlib.Algebra.Order.Ring.Nat
import IrohSync.Lib.Chunks
import IrohSync.Lib.Slots
import IrohSync.Snapshot.Database

/-!
# Exporting and importing snapshots

A snapshot is serialized and cut into numbered chunks; the importer places the data
of each chunk by its number and puts the slots together.  A call that panics has no
result: an export with chunks of size zero, and whatever asks a vector for more room
than a vector can have.

Main results:

- Theorem {lit}`export_ok`: the chunks of an export.
- Theorem {lit}`importEach_spec`: the slots after a sequence of calls.
- Theorem {lit}`importEach_eq_none_iff`: exactly which sequences of calls panic.
-/

namespace IrohSync

open FileIo Chunks Slots

/-- The encoding of snapshots. -/
structure SnapshotCodec where
  serialize : DatabaseSnapshot → Except String Bytes
  deserialize : Bytes → Except String DatabaseSnapshot

/-- Decoding inverts encoding, and no snapshot is encoded as nothing. -/
structure SnapshotCodec.Lawful (codec : SnapshotCodec) : Prop where
  deserialize_serialize : ∀ {snapshot data}, codec.serialize snapshot = .ok data →
    codec.deserialize data = .ok snapshot
  serialize_ne_nil : ∀ {snapshot data}, codec.serialize snapshot = .ok data → data ≠ []

/-- The most elements of a size that a vector has room for. -/
def vecLimit (elementSize : Nat) : Nat :=
  (2 ^ 63 - 1) / elementSize

/-! ## Exporting -/

/-- A chunk of a snapshot for streaming. -/
structure SnapshotChunk where
  sequence : UInt64
  total : UInt64
  data : Bytes
  isLast : Bool
deriving DecidableEq, Repr

/-- Serialize a snapshot. -/
def serialize (codec : SnapshotCodec) (snapshot : DatabaseSnapshot) : Except IoError Bytes :=
  (codec.serialize snapshot).mapError fun e => ⟨.invalidData, e⟩

/-- Deserialize a snapshot. -/
def deserialize (codec : SnapshotCodec) (data : Bytes) : Except IoError DatabaseSnapshot :=
  (codec.deserialize data).mapError fun e => ⟨.invalidData, e⟩

/-- Snapshot exporter for streaming large snapshots. -/
structure SnapshotExporter where
  serializer : SnapshotSerializer
  config : SnapshotConfig
deriving DecidableEq, Repr

/-- Create a new exporter. -/
def SnapshotExporter.new (config : SnapshotConfig) : SnapshotExporter where
  serializer := .new config
  config := config

/-- Add a change. -/
def SnapshotExporter.addChange (e : SnapshotExporter) (change : Change) : SnapshotExporter :=
  { e with serializer := e.serializer.addChange change }

/-- The chunk at a position. -/
def makeChunk (chunkSize : Nat) (data : Bytes) (i : Nat) : SnapshotChunk where
  sequence := UInt64.ofNat i
  total := UInt64.ofNat (divCeil data.length chunkSize)
  data := chunk chunkSize data i
  isLast := decide (i = divCeil data.length chunkSize - 1)

/-- Cut data into chunks.  Dividing by zero panics, and so does collecting more chunks
of 56 bytes than a vector has room for. -/
def makeChunks (chunkSize : Nat) (data : Bytes) : Option (List SnapshotChunk) :=
  if chunkSize = 0 ∨ vecLimit 56 < divCeil data.length chunkSize then none
  else some ((List.range (divCeil data.length chunkSize)).map (makeChunk chunkSize data))

/-- Data is cut into chunks if these have a size and a vector has room for them. -/
theorem makeChunks_eq_some_iff {chunkSize : Nat} {data : Bytes} {chunks : List SnapshotChunk} :
    makeChunks chunkSize data = some chunks ↔
      (chunkSize ≠ 0 ∧ divCeil data.length chunkSize ≤ vecLimit 56) ∧
        (List.range (divCeil data.length chunkSize)).map (makeChunk chunkSize data) = chunks := by
  unfold makeChunks
  split_ifs with hpanic
  · refine iff_of_false not_false fun h => ?_
    rcases hpanic with hzero | hmany
    · exact h.1.1 hzero
    · exact Nat.not_lt.mpr h.1.2 hmany
  · rw [not_or, Nat.not_lt] at hpanic
    rw [Option.some_inj]
    exact (and_iff_right hpanic).symm

/-- Export a snapshot of the pending changes. -/
def SnapshotExporter.export (env : SnapshotEnv) (codec : SnapshotCodec) (e : SnapshotExporter) :
    SnapshotExporter × Option (Except IoError (List SnapshotChunk)) :=
  let built := e.serializer.buildSnapshot env
  let e := { e with serializer := built.1 }
  match serialize codec built.2 with
  | .error err => (e, some (.error err))
  | .ok data => (e, (makeChunks e.config.chunkSize.toNat data).map .ok)

/-- An export whose snapshot cannot be serialized returns the error. -/
theorem export_error {env : SnapshotEnv} {codec : SnapshotCodec} {e : SnapshotExporter}
    {message : String} (h : codec.serialize (e.serializer.buildSnapshot env).2 = .error message) :
    (e.export env codec).2 = some (.error ⟨.invalidData, message⟩) := by
  simp only [SnapshotExporter.export, serialize, h, Except.mapError]

/-- An export whose snapshot is serialized cuts the data into chunks. -/
theorem export_ok {env : SnapshotEnv} {codec : SnapshotCodec} {e : SnapshotExporter}
    {data : Bytes} (h : codec.serialize (e.serializer.buildSnapshot env).2 = .ok data) :
    (e.export env codec).2 = (makeChunks e.config.chunkSize.toNat data).map .ok := by
  simp only [SnapshotExporter.export, serialize, h, Except.mapError]

/-! ## Importing -/

/-- Snapshot importer for receiving streamed snapshots. -/
structure SnapshotImporter where
  receivedChunks : List Bytes
  totalChunks : Option UInt64
deriving DecidableEq, Repr

/-- Create a new importer. -/
def SnapshotImporter.new : SnapshotImporter where
  receivedChunks := []
  totalChunks := none

/-- The error of a chunk whose number is too large. -/
def invalidChunk : IoError where
  kind := .invalidInput
  message := "invalid chunk"

/-- The error of an import that is not complete. -/
def incomplete : IoError where
  kind := .unexpectedEof
  message := "incomplete"

/-- Place a chunk by its number.  A vector of 32-byte slots that would get too long
panics; the last number of all panics in any case, where the new length overflows or
wraps to zero. -/
def SnapshotImporter.placeChunk (s : SnapshotImporter) (chunk : SnapshotChunk) :
    Option (SnapshotImporter × Except IoError Unit) :=
  let idx := chunk.sequence.toNat
  if s.receivedChunks.length ≤ idx ∧ vecLimit 32 < idx + 1 then none
  else some ({ s with receivedChunks := place [] s.receivedChunks idx chunk.data }, .ok ())

/-- Import one chunk.  The first chunk decides how many there are. -/
def SnapshotImporter.importChunk (s : SnapshotImporter) (chunk : SnapshotChunk) :
    Option (SnapshotImporter × Except IoError Unit) :=
  match s.totalChunks with
  | some t =>
      if t ≤ chunk.sequence then some (s, .error invalidChunk) else s.placeChunk chunk
  | none => SnapshotImporter.placeChunk { s with totalChunks := some chunk.total } chunk

/-- All received chunks up to the total are there. -/
def SnapshotImporter.isComplete (s : SnapshotImporter) : Bool :=
  match s.totalChunks with
  | some t => (s.receivedChunks.take t.toNat).all fun c => !c.isEmpty
  | none => false

/-- Put the received chunks together and decode them. -/
def SnapshotImporter.finalize (codec : SnapshotCodec) (s : SnapshotImporter) :
    Except IoError DatabaseSnapshot :=
  if s.isComplete then deserialize codec s.receivedChunks.flatten else .error incomplete

/-- Forget everything that was received. -/
def SnapshotImporter.reset (_ : SnapshotImporter) : SnapshotImporter where
  receivedChunks := []
  totalChunks := none

/-- Import chunks one after the other; the results of the calls. -/
def SnapshotImporter.importEach :
    SnapshotImporter → List SnapshotChunk →
      Option (SnapshotImporter × List (Except IoError Unit))
  | s, [] => some (s, [])
  | s, c :: cs =>
      match s.importChunk c with
      | none => none
      | some (s', result) => (s'.importEach cs).map fun rest => (rest.1, result :: rest.2)

/-! ## What a sequence of calls leaves -/

/-- A chunk that a vector has room for. -/
def SnapshotChunk.Fits (c : SnapshotChunk) : Prop :=
  c.sequence.toNat < vecLimit 32

/-- The chunks that are placed: without a total the first one, and from then on those
below the total. -/
def accepted (total : Option UInt64) (cs : List SnapshotChunk) : List SnapshotChunk :=
  match total, cs with
  | some t, cs => cs.filter fun c => decide (c.sequence < t)
  | none, [] => []
  | none, c :: cs => c :: cs.filter fun d => decide (d.sequence < c.total)

/-- Where chunks are placed. -/
def placements (cs : List SnapshotChunk) : List (Nat × Bytes) :=
  cs.map fun c => (c.sequence.toNat, c.data)

theorem accepted_sublist (total : Option UInt64) (cs : List SnapshotChunk) :
    (accepted total cs).Sublist cs := by
  unfold accepted
  split
  · exact List.filter_sublist
  · exact List.Sublist.refl _
  · exact List.filter_sublist.cons_cons _

/-- One call: a chunk at or above the total is refused, and any other one is placed
under the total. -/
theorem importChunk_cases (s : SnapshotImporter) (c : SnapshotChunk) (cs : List SnapshotChunk) :
    (∃ t, s.totalChunks = some t ∧ t ≤ c.sequence ∧
      s.importChunk c = some (s, .error invalidChunk) ∧
      accepted s.totalChunks (c :: cs) = accepted s.totalChunks cs) ∨
    (∃ t, (s.totalChunks = some t ∧ c.sequence < t ∨ s.totalChunks = none ∧ t = c.total) ∧
      s.importChunk c = SnapshotImporter.placeChunk { s with totalChunks := some t } c ∧
      accepted s.totalChunks (c :: cs) = c :: accepted (some t) cs) := by
  unfold SnapshotImporter.importChunk
  cases htotal : s.totalChunks with
  | none => exact Or.inr ⟨c.total, Or.inr ⟨rfl, rfl⟩, rfl, rfl⟩
  | some t =>
      by_cases hle : t ≤ c.sequence
      · have hnot : ¬ c.sequence < t := UInt64.not_lt.mpr hle
        exact Or.inl ⟨t, rfl, hle, if_pos hle, by simp [accepted, hnot]⟩
      · have hlt : c.sequence < t := UInt64.not_le.mp hle
        refine Or.inr ⟨t, Or.inl ⟨rfl, hlt⟩, ?_, by simp [accepted, hlt]⟩
        simp only [if_neg hle]
        rw [← htotal]

/-- Placing a chunk panics exactly if there is no room for it. -/
theorem placeChunk_eq {s : SnapshotImporter} (hroom : s.receivedChunks.length ≤ vecLimit 32)
    (c : SnapshotChunk) :
    (c.Fits → s.placeChunk c = some
      ({ s with receivedChunks := place [] s.receivedChunks c.sequence.toNat c.data }, .ok ())) ∧
    (¬ c.Fits → s.placeChunk c = none) := by
  unfold SnapshotImporter.placeChunk SnapshotChunk.Fits
  constructor
  · intro hfits
    exact if_neg (by omega)
  · intro hfits
    exact if_pos ⟨by omega, by omega⟩

/-- A chunk that has room leaves room for the slots. -/
theorem place_room {xs : List Bytes} {c : SnapshotChunk} (hroom : xs.length ≤ vecLimit 32)
    (hfits : c.Fits) : (place [] xs c.sequence.toNat c.data).length ≤ vecLimit 32 := by
  rw [place_length]
  exact Nat.max_le.mpr ⟨hroom, hfits⟩

/-- If there is room for every chunk that is placed, no call panics, the slots are
those of the placed chunks, and the total is that of the first chunk. -/
theorem importEach_spec {s : SnapshotImporter} {cs : List SnapshotChunk}
    (hroom : s.receivedChunks.length ≤ vecLimit 32)
    (hfits : ∀ c ∈ accepted s.totalChunks cs, c.Fits) :
    ∃ s' results, s.importEach cs = some (s', results) ∧
      s'.receivedChunks =
        placeAll [] s.receivedChunks (placements (accepted s.totalChunks cs)) ∧
      s'.totalChunks = s.totalChunks.or (cs.head?.map SnapshotChunk.total) ∧
      (accepted s.totalChunks cs = cs → ∀ r ∈ results, r = .ok ()) := by
  induction cs generalizing s with
  | nil =>
      have hnone : accepted s.totalChunks [] = [] :=
        List.sublist_nil.mp (accepted_sublist s.totalChunks [])
      exact ⟨s, [], rfl, by rw [hnone]; rfl, Option.or_none.symm, fun _ r hr =>
        absurd hr List.not_mem_nil⟩
  | cons c cs ih =>
      rcases importChunk_cases s c cs with ⟨t, htotal, hle, himport, haccepted⟩ |
        ⟨t, htotal, himport, haccepted⟩
      · -- the chunk is refused
        rw [haccepted] at hfits
        rcases ih hroom hfits with ⟨s', results, heach, hreceived, hfinal, _⟩
        refine ⟨s', .error invalidChunk :: results, ?_, by rw [hreceived, haccepted], ?_, ?_⟩
        · rw [SnapshotImporter.importEach, himport]
          simp only [heach, Option.map_some]
        · rw [hfinal, htotal]
          rfl
        · intro hall
          rw [haccepted] at hall
          have hlen := (accepted_sublist s.totalChunks cs).length_le
          rw [hall, List.length_cons] at hlen
          omega
      · rw [haccepted, List.forall_mem_cons] at hfits
        have hplace := (placeChunk_eq (s := { s with totalChunks := some t }) hroom c).1 hfits.1
        rcases ih (s := { s with
            receivedChunks := place [] s.receivedChunks c.sequence.toNat c.data
            totalChunks := some t }) (place_room hroom hfits.1) hfits.2 with
          ⟨s', results, heach, hreceived, hfinal, hok⟩
        refine ⟨s', .ok () :: results, ?_, ?_, ?_, ?_⟩
        · rw [SnapshotImporter.importEach, himport, hplace]
          simp only [heach, Option.map_some]
        · rw [hreceived, haccepted]
          rfl
        · rw [hfinal]
          rcases htotal with ⟨hsome, _⟩ | ⟨hnone, rfl⟩
          · rw [hsome]
            rfl
          · rw [hnone]
            rfl
        · intro hall
          rw [haccepted, List.cons.injEq] at hall
          exact List.forall_mem_cons.mpr ⟨rfl, hok hall.2⟩

/-- A sequence of calls panics exactly if there is no room for a chunk that is
placed. -/
theorem importEach_eq_none_iff {s : SnapshotImporter} {cs : List SnapshotChunk}
    (hroom : s.receivedChunks.length ≤ vecLimit 32) :
    s.importEach cs = none ↔ ¬ ∀ c ∈ accepted s.totalChunks cs, c.Fits := by
  constructor
  · intro hnone hfits
    rcases importEach_spec hroom hfits with ⟨s', results, heach, _⟩
    rw [hnone] at heach
    contradiction
  · intro hnot
    induction cs generalizing s with
    | nil =>
        have hnil := List.sublist_nil.mp (accepted_sublist s.totalChunks [])
        exact absurd (by simp [hnil]) hnot
    | cons c cs ih =>
        rw [SnapshotImporter.importEach]
        rcases importChunk_cases s c cs with ⟨t, _, _, himport, haccepted⟩ |
          ⟨t, _, himport, haccepted⟩
        · rw [haccepted] at hnot
          rw [himport]
          simp only [ih hroom hnot, Option.map_none]
        · have hplace := placeChunk_eq (s := { s with totalChunks := some t }) hroom c
          rw [haccepted, List.forall_mem_cons, not_and] at hnot
          rw [himport]
          by_cases hfits : c.Fits
          · rw [hplace.1 hfits]
            simp only [ih (s := { s with
              receivedChunks := place [] s.receivedChunks c.sequence.toNat c.data
              totalChunks := some t }) (place_room hroom hfits) (hnot hfits), Option.map_none]
          · rw [hplace.2 hfits]

end IrohSync
