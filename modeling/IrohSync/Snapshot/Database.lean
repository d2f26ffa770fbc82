import Mathlib.Data.List.AList
import IrohSync.Change
import IrohSync.Lib.Text

/-!
# Database snapshots

The data of a snapshot with its checksum, and how pending changes are grouped into
one.  The clock, the hasher of the standard library and the order in which its hash
maps are traversed are parameters: a reading of the clock is given by its number, a
hash is a function of everything that was written to the hasher, and a map is
traversed in some order that depends on the map.

Main results:

- Theorem {lit}`validate_new`: a new snapshot is valid.
- Theorem {lit}`buildSnapshot_validate`: so is the snapshot of pending changes.
-/

namespace IrohSync

open FileIo Text

/-! ## Snapshots -/

/-- One entry of a database. -/
structure KeyValueEntry where
  key : Option Bytes
  value : Option Bytes
  timestampSecs : UInt64
deriving DecidableEq, Repr

/-- One schema of a database. -/
structure SchemaEntry where
  schemaType : String
  definition : Bytes
deriving DecidableEq, Repr

/-- A database of a snapshot. -/
structure DbSnapshot where
  name : String
  entries : List KeyValueEntry
  schemas : List SchemaEntry
deriving DecidableEq, Repr

/-- A namespace of a snapshot. -/
structure NamespaceSnapshot where
  name : String
  databases : List DbSnapshot
deriving DecidableEq, Repr

/-- A complete database snapshot for initial sync. -/
structure DatabaseSnapshot where
  version : UInt32
  timestampSecs : UInt64
  namespaces : List NamespaceSnapshot
  checksum : UInt64
deriving DecidableEq, Repr

/-! ## Checksums -/

/-- A write to a hasher. -/
inductive HashWrite where
  | bytes (b : Bytes)
  | usize (n : UInt64)
deriving DecidableEq, Repr

/-- What the checksum of a database feeds to the hasher. -/
def DbSnapshot.feed (db : DbSnapshot) : List HashWrite :=
  [.bytes (asBytes db.name), .usize (UInt64.ofNat db.entries.length)]

/-- What the checksum of a namespace feeds to the hasher. -/
def NamespaceSnapshot.feed (n : NamespaceSnapshot) : List HashWrite :=
  .bytes (asBytes n.name) :: n.databases.flatMap DbSnapshot.feed

/-- What the clock, the hasher and the hash maps do.  The traversal of a map depends
on the map: the outer one, or the one of a namespace. -/
structure SnapshotEnv where
  clock : Nat → UInt64
  hash : List HashWrite → UInt64
  traverse : Option String → {α : Type} → List (String × α) → List (String × α)
  traverse_perm : ∀ path {α : Type} (entries : List (String × α)),
    (traverse path entries).Perm entries

/-- The checksum of namespaces. -/
def DatabaseSnapshot.calculateChecksum (env : SnapshotEnv) (ns : List NamespaceSnapshot) :
    UInt64 :=
  env.hash (ns.flatMap NamespaceSnapshot.feed)

/-- Create a new snapshot at a time. -/
def DatabaseSnapshot.new (env : SnapshotEnv) (now : UInt64)
    (namespaces : List NamespaceSnapshot) : DatabaseSnapshot where
  version := 1
  timestampSecs := now
  namespaces := namespaces
  checksum := calculateChecksum env namespaces

/-- The stored checksum is the checksum of the namespaces. -/
def DatabaseSnapshot.validate (env : SnapshotEnv) (s : DatabaseSnapshot) : Bool :=
  s.checksum == calculateChecksum env s.namespaces

theorem validate_eq_true {env : SnapshotEnv} {s : DatabaseSnapshot} :
    s.validate env = true ↔
      s.checksum = DatabaseSnapshot.calculateChecksum env s.namespaces := by
  rw [DatabaseSnapshot.validate, beq_iff_eq]

/-- A new snapshot is valid. -/
theorem validate_new (env : SnapshotEnv) (now : UInt64) (namespaces : List NamespaceSnapshot) :
    (DatabaseSnapshot.new env now namespaces).validate env = true :=
  validate_eq_true.mpr rfl

/-! ## Grouping changes -/

/-- Configuration for snapshot sync. -/
structure SnapshotConfig where
  compress : Bool := true
  compressionLevel : Int32 := 3
  maxSize : UInt64 := 100 * 1024 * 1024
  chunkSize : UInt64 := 64 * 1024
deriving DecidableEq, Repr

/-- Set the size of the chunks. -/
def SnapshotConfig.withChunkSize (config : SnapshotConfig) (size : UInt64) : SnapshotConfig :=
  { config with chunkSize := size }

/-- Snapshot serializer for converting changes to snapshots. -/
structure SnapshotSerializer where
  config : SnapshotConfig
  pendingChanges : List Change
deriving DecidableEq, Repr

/-- Create a new serializer. -/
def SnapshotSerializer.new (config : SnapshotConfig) : SnapshotSerializer where
  config := config
  pendingChanges := []

/-- Add a change. -/
def SnapshotSerializer.addChange (s : SnapshotSerializer) (change : Change) :
    SnapshotSerializer :=
  { s with pendingChanges := s.pendingChanges ++ [change] }

/-- The entries of the databases of a namespace. -/
abbrev DatabaseMap := AList fun _ : String => List KeyValueEntry

/-- The databases of the namespaces. -/
abbrev NamespaceMap := AList fun _ : String => DatabaseMap

/-- Add the entry of a change to its database. -/
def NamespaceMap.addEntry (nsMap : NamespaceMap) (change : Change) (now : UInt64) :
    NamespaceMap :=
  let dbMap := (nsMap.lookup change.namespace).getD ∅
  let entries := (dbMap.lookup change.database).getD []
  let entry : KeyValueEntry :=
    { key := change.key, value := change.value, timestampSecs := now }
  nsMap.insert change.namespace (dbMap.insert change.database (entries ++ [entry]))

/-- Group changes by their namespaces and databases; the clock is read once for each. -/
def groupChanges (env : SnapshotEnv) (changes : List Change) : NamespaceMap :=
  changes.zipIdx.foldl (fun nsMap c => nsMap.addEntry c.1 (env.clock c.2)) ∅

/-- The entries of a map in the order in which it is traversed. -/
def SnapshotEnv.items (env : SnapshotEnv) (path : Option String) {α : Type}
    (map : AList fun _ : String => α) : List (String × α) :=
  env.traverse path (map.entries.map fun entry => (entry.1, entry.2))

/-- The namespaces of a map. -/
def NamespaceMap.snapshots (env : SnapshotEnv) (nsMap : NamespaceMap) : List NamespaceSnapshot :=
  (env.items none nsMap).map fun n =>
    { name := n.1
      databases := (env.items (some n.1) n.2).map fun db =>
        { name := db.1, entries := db.2, schemas := [] } }

/-- Build a snapshot of the pending changes, which are taken out. -/
def SnapshotSerializer.buildSnapshot (env : SnapshotEnv) (s : SnapshotSerializer) :
    SnapshotSerializer × DatabaseSnapshot :=
  let changes := s.pendingChanges
  ({ s with pendingChanges := [] },
    .new env (env.clock changes.length) (NamespaceMap.snapshots env (groupChanges env changes)))

/-- The snapshot of pending changes is valid. -/
theorem buildSnapshot_validate (env : SnapshotEnv) (s : SnapshotSerializer) :
    (s.buildSnapshot env).2.validate env = true :=
  validate_new env _ _

end IrohSync
