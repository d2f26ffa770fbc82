import IrohSync.Lib.Delimited
import IrohSync.Lib.Framing
import IrohSync.Snapshot.Database

/-!
# What a checksum covers

The checksum of a snapshot hashes the names of the namespaces and databases and the number
of entries of each database, one after the other and with nothing between them.  It reads no
entry and no schema, and of neighbouring names only what they are together.

Main results:

- Theorem {lit}`hashedBytes_eq_text`: the hashed text has the joined names between the numbers.
- Theorem {lit}`spelled_eq_of_hashedBytes`: when joined names and numbers are read back.
- Theorem {lit}`alteration_detected`: which alterations of a snapshot are detected.
-/

namespace IrohSync

open Delimited FileIo Framing Text

/-! ## The hashed bytes -/

/-- The bytes that a write adds to the hashed text; a number is written as its eight bytes,
least significant first. -/
def HashWrite.data : HashWrite → Bytes
  | .bytes b => b
  | .usize n => leBytes n.toNat ++ leBytes (n.toNat / 2 ^ 32)

/-- What the checksum of namespaces feeds to the hasher. -/
def fed (ns : List NamespaceSnapshot) : List HashWrite :=
  ns.flatMap NamespaceSnapshot.feed

/-- The hashed text: a hasher is fed one stream of bytes. -/
def hashedBytes (ns : List NamespaceSnapshot) : Bytes :=
  (fed ns).flatMap HashWrite.data

/-- The bytes of a number of entries. -/
def writeCount (n : UInt64) : Bytes :=
  (HashWrite.usize n).data

/-- Put the name of a database and its number of entries in front. -/
def DbSnapshot.spell (db : DbSnapshot) (s : Spelling UInt8 UInt64) : Spelling UInt8 UInt64 :=
  (s.mark (UInt64.ofNat db.entries.length)).word (asBytes db.name)

/-- Put the name of a namespace and its databases in front. -/
def NamespaceSnapshot.spell (n : NamespaceSnapshot) (s : Spelling UInt8 UInt64) :
    Spelling UInt8 UInt64 :=
  (n.databases.foldr DbSnapshot.spell s).word (asBytes n.name)

/-- The numbers of entries of all databases in their order, in front of each the names that
stand between it and the number before, joined, and the joined names behind the last one. -/
def spelled (ns : List NamespaceSnapshot) : Spelling UInt8 UInt64 :=
  ns.foldr NamespaceSnapshot.spell ⟨[], []⟩

theorem text_spell_databases (dbs : List DbSnapshot) (s : Spelling UInt8 UInt64) :
    (dbs.foldr DbSnapshot.spell s).text writeCount =
      (dbs.flatMap DbSnapshot.feed).flatMap HashWrite.data ++ s.text writeCount := by
  induction dbs with
  | nil => rfl
  | cons db dbs ih =>
      rw [List.foldr_cons, DbSnapshot.spell, text_word, text_mark, ih]
      simp [DbSnapshot.feed, writeCount, HashWrite.data]

/-- The hashed text is the text of the joined names and the numbers between them. -/
theorem hashedBytes_eq_text (ns : List NamespaceSnapshot) :
    hashedBytes ns = (spelled ns).text writeCount := by
  unfold hashedBytes fed spelled
  induction ns with
  | nil => rfl
  | cons n ns ih =>
      rw [List.foldr_cons, NamespaceSnapshot.spell, text_word, text_spell_databases, ← ih]
      simp [NamespaceSnapshot.feed, HashWrite.data]

/-! ## Reading names and numbers back -/

/-- How many bytes are hashed. -/
def hashedSize (ns : List NamespaceSnapshot) : Nat :=
  (ns.map fun n => (asBytes n.name).length +
    (n.databases.map fun db => (asBytes db.name).length + 8).sum).sum

/-- No name has a zero byte, and the number of entries of every database is below 2^32. -/
def NamespaceSnapshot.Plain (n : NamespaceSnapshot) : Prop :=
  0 ∉ asBytes n.name ∧
    ∀ db ∈ n.databases, 0 ∉ asBytes db.name ∧ db.entries.length < 2 ^ 32

theorem length_writeCount (c : UInt64) : (writeCount c).length = 8 :=
  rfl

theorem writeCount_injective : Function.Injective writeCount := by
  intro c c' heq
  have hparts := List.append_inj heq rfl
  have hlow := congrArg leValue hparts.1
  have hhigh := congrArg leValue hparts.2
  rw [leValue_leBytes, leValue_leBytes] at hlow hhigh
  have hc := c.toNat_lt
  have hc' := c'.toNat_lt
  apply UInt64.toNat_inj.mp
  omega

theorem length_hashedBytes (ns : List NamespaceSnapshot) :
    (hashedBytes ns).length = hashedSize ns := by
  have hdb : ∀ db : DbSnapshot, (db.feed.flatMap HashWrite.data).length =
      (asBytes db.name).length + 8 := by
    intro db
    simp [DbSnapshot.feed, HashWrite.data, leBytes]
  have hname : ∀ n : NamespaceSnapshot, (n.feed.flatMap HashWrite.data).length =
      (asBytes n.name).length +
        (n.databases.map fun db => (asBytes db.name).length + 8).sum := by
    intro n
    simp only [NamespaceSnapshot.feed, List.flatMap_cons, List.length_append, HashWrite.data,
      List.flatMap_assoc, List.length_flatMap, hdb]
  simp only [hashedBytes, fed, List.flatMap_assoc, List.length_flatMap, hname, hashedSize]

/-- The number of entries of a database that has fewer than 2^32 ends in four zero bytes. -/
theorem ends_writeCount {n : Nat} (h : n < 2 ^ 32) :
    Ends writeCount 0 4 (UInt64.ofNat n) := by
  refine ⟨leBytes n, rfl, ?_⟩
  have hn : (UInt64.ofNat n).toNat = n := by
    rw [UInt64.toNat_ofNat']
    omega
  rw [writeCount, HashWrite.data, hn, Nat.div_eq_of_lt h]
  rfl

theorem plain_spelled {ns : List NamespaceSnapshot} (h : ∀ n ∈ ns, n.Plain) :
    (spelled ns).Plain writeCount 0 4 := by
  unfold spelled
  induction ns with
  | nil => exact ⟨by simp [PlainBlocks], by simp⟩
  | cons n ns ih =>
      rcases List.forall_mem_cons.mp h with ⟨⟨hname, hdbs⟩, hrest⟩
      rw [List.foldr_cons]
      refine Spelling.Plain.word hname ?_
      generalize n.databases = dbs at hdbs
      induction dbs with
      | nil => exact ih hrest
      | cons db dbs ihdb =>
          rcases List.forall_mem_cons.mp hdbs with ⟨⟨hdb, hcount⟩, hdbs⟩
          exact ((ihdb hdbs).mark (ends_writeCount hcount)).word hdb

/-- Where the hashed text tells the joined names and the numbers: the texts have different
lengths, or all joined names the same lengths, or no name has a zero byte and all numbers are
below 2^32. -/
def Legible (ns ns' : List NamespaceSnapshot) : Prop :=
  hashedSize ns ≠ hashedSize ns' ∨ (spelled ns).layout = (spelled ns').layout ∨
    (∀ n ∈ ns, n.Plain) ∧ ∀ n ∈ ns', n.Plain

/-- Where they are legible, joined names and numbers are read back from the hashed text. -/
theorem spelled_eq_of_hashedBytes {ns ns' : List NamespaceSnapshot} (h : Legible ns ns')
    (heq : hashedBytes ns = hashedBytes ns') : spelled ns = spelled ns' := by
  have htext := heq
  rw [hashedBytes_eq_text, hashedBytes_eq_text] at htext
  rcases h with hsize | hlayout | ⟨hplain, hplain'⟩
  · refine absurd ?_ hsize
    rw [← length_hashedBytes, heq, length_hashedBytes]
  · exact eq_of_sameLayout length_writeCount writeCount_injective hlayout htext
  · exact eq_of_plain (by decide) writeCount_injective (plain_spelled hplain)
      (plain_spelled hplain') htext

/-! ## Altered snapshots -/

/-- The hasher tells the texts of two lists of namespaces apart if they are not the same. -/
def SnapshotEnv.CollisionFree (env : SnapshotEnv) (ns ns' : List NamespaceSnapshot) : Prop :=
  env.hash (fed ns) = env.hash (fed ns') ↔ hashedBytes ns = hashedBytes ns'

/-- A snapshot whose namespaces were altered after it was made. -/
def altered (env : SnapshotEnv) (now : UInt64) (ns ns' : List NamespaceSnapshot) :
    DatabaseSnapshot :=
  { DatabaseSnapshot.new env now ns with namespaces := ns' }

/-- If two lists of namespaces differ, what is hashed for them differs, and a snapshot of
the one that was altered to the other is not valid. -/
def Detected (ns ns' : List NamespaceSnapshot) : Prop :=
  ns ≠ ns' → hashedBytes ns ≠ hashedBytes ns' ∧
    ∀ env : SnapshotEnv, env.CollisionFree ns ns' →
      ∀ now, (altered env now ns ns').validate env = false

/-- Without collisions an altered snapshot is valid exactly if the same text is hashed. -/
theorem validate_altered_iff {env : SnapshotEnv} {ns ns' : List NamespaceSnapshot}
    (hfree : env.CollisionFree ns ns') (now : UInt64) :
    (altered env now ns ns').validate env = true ↔ hashedBytes ns = hashedBytes ns' := by
  rw [validate_eq_true]
  exact hfree

/-- An alteration is detected if it changes a number of entries or the joined names between
two numbers, where the hashed text tells them.  If it changes none of them it is not. -/
theorem alteration_detected (ns ns' : List NamespaceSnapshot) :
    (ns = ns' ∨ Legible ns ns' ∧ spelled ns ≠ spelled ns' → Detected ns ns') ∧
      (Detected ns ns' → ns = ns' ∨ spelled ns ≠ spelled ns') := by
  constructor
  · rintro (rfl | ⟨hlegible, hspelled⟩) hne
    · exact absurd rfl hne
    · have hdiffer : hashedBytes ns ≠ hashedBytes ns' :=
        fun heq => hspelled (spelled_eq_of_hashedBytes hlegible heq)
      refine ⟨hdiffer, fun env hfree now => ?_⟩
      rw [← Bool.not_eq_true, validate_altered_iff hfree]
      exact hdiffer
  · intro hdetected
    by_cases heq : ns = ns'
    · exact Or.inl heq
    · refine Or.inr fun hspelled => (hdetected heq).1 ?_
      rw [hashedBytes_eq_text, hashedBytes_eq_text, hspelled]

/-- One entry of one database. -/
def oneEntry (value : Bytes) : List NamespaceSnapshot :=
  [⟨"n", [⟨"d", [⟨some [7], some value, 1700000000⟩], []⟩]⟩]

/-- Another value of an entry is not detected, and neither is a namespace that is cut in
two. -/
theorem not_detected_value :
    ¬ Detected (oneEntry [1]) (oneEntry [2]) ∧
      ¬ Detected [⟨"ab", []⟩] [⟨"a", []⟩, ⟨"b", []⟩] := by
  constructor
  · intro hdetected
    exact (hdetected (by decide)).1 rfl
  · intro hdetected
    exact (hdetected (by decide)).1 (by decide)

/-- Every list of namespaces can be altered in a way that is not detected: a namespace
without name and databases is put behind it. -/
theorem exists_not_detected (ns : List NamespaceSnapshot) : ∃ ns', ¬ Detected ns ns' := by
  refine ⟨ns ++ [⟨"", []⟩], fun hdetected => ?_⟩
  have hne : ns ≠ ns ++ [⟨"", []⟩] := by simp
  refine (hdetected hne).1 ?_
  simp [hashedBytes, fed, NamespaceSnapshot.feed, HashWrite.data, asBytes]

end IrohSync
