import Mathlib.Data.Prod.Basic
import IrohSync.Lib.Table
import IrohSync.Snapshot.Database

/-!
# The snapshot of pending changes

Pending changes are sorted into maps of namespaces and databases, which are then traversed
in any order.  Every change becomes one entry of its database, behind those that were added
before it, so that replaying the entries has the effect of replaying the changes.

Main results:

- Theorem {lit}`groupChanges_lookup`: the entries of a database in the maps.
- Theorem {lit}`mem_databaseList_iff`: the databases of a snapshot.
- Theorem {lit}`buildSnapshot_preserves`: a snapshot preserves the pending changes.
-/

namespace IrohSync

open FileIo Table

/-! ## Totals -/

/-- The number of entries of a database. -/
def DbSnapshot.totalEntries (db : DbSnapshot) : Nat :=
  db.entries.length

/-- The number of entries of a namespace. -/
def NamespaceSnapshot.totalEntries (n : NamespaceSnapshot) : Nat :=
  (n.databases.map DbSnapshot.totalEntries).sum

/-- The number of entries of a snapshot. -/
def DatabaseSnapshot.totalEntries (s : DatabaseSnapshot) : Nat :=
  (s.namespaces.map NamespaceSnapshot.totalEntries).sum

/-! ## Replaying -/

/-- The keys and values of a database. -/
abbrev KeyValues := Bytes → Option Bytes

/-- The keys and values of all databases, each under its namespace and name. -/
abbrev Store := String × String → KeyValues

/-- The namespace and the database of a change. -/
def Change.pair (c : Change) : String × String :=
  (c.namespace, c.database)

/-- What a change does to its database: a set or a delete of a key, else nothing. -/
def Change.effect (c : Change) (state : KeyValues) : KeyValues :=
  match c.operation, c.key, c.value with
  | .set, some key, some value => Function.update state key (some value)
  | .delete, some key, _ => Function.update state key none
  | _, _, _ => state

/-- Replay a change. -/
def Change.replay (store : Store) (c : Change) : Store :=
  Function.update store c.pair (c.effect (store c.pair))

/-- Replay an entry: a value is set, no value is a delete, and no key is nothing. -/
def KeyValueEntry.replay (state : KeyValues) (e : KeyValueEntry) : KeyValues :=
  match e.key, e.value with
  | some key, some value => Function.update state key (some value)
  | some key, none => Function.update state key none
  | none, _ => state

/-- The databases of namespaces, each under its namespace and name. -/
def databaseList (namespaces : List NamespaceSnapshot) :
    List ((String × String) × List KeyValueEntry) :=
  namespaces.flatMap fun n => n.databases.map fun db => ((n.name, db.name), db.entries)

/-- Replay the entries of each database. -/
def replayAll (store : Store) (databases : List ((String × String) × List KeyValueEntry)) :
    Store :=
  databases.foldl
    (fun store db => Function.update store db.1 (db.2.foldl KeyValueEntry.replay (store db.1)))
    store

/-- A change that was made for a query, a set or a delete. -/
inductive Change.Made : Change → Prop
  | query (id : Uuid) (timestamp : UInt64) (ns db : String) (table : Option String) :
      Made (.query id timestamp ns db table)
  | set (id : Uuid) (timestamp : UInt64) (ns db : String) (key value : Bytes) :
      Made (.set id timestamp ns db key value)
  | delete (id : Uuid) (timestamp : UInt64) (ns db : String) (key : Bytes) :
      Made (.delete id timestamp ns db key)

/-- A change whose entry tells what it does: a set of a key has a value, a delete of a key has
none, and every other change has no key. -/
def Change.Replayable (c : Change) : Prop :=
  ∀ key ∈ c.key, (c.operation = .set ∧ c.value ≠ none) ∨ (c.operation = .delete ∧ c.value = none)

theorem Change.Made.replayable {c : Change} (h : c.Made) : c.Replayable := by
  cases h with
  | query id timestamp ns db table => exact fun key hkey => absurd hkey (Option.not_mem_none key)
  | set id timestamp ns db key value => exact fun _ _ => Or.inl ⟨rfl, Option.some_ne_none value⟩
  | delete id timestamp ns db key => exact fun _ _ => Or.inr ⟨rfl, rfl⟩

/-- Replaying changes takes each database through the changes that are for it. -/
theorem replay_changes (changes : List Change) (store : Store) (pair : String × String) :
    changes.foldl Change.replay store pair =
      (changes.filter fun c => decide (c.pair = pair)).foldl (fun state c => c.effect state)
        (store pair) := by
  induction changes generalizing store with
  | nil => rfl
  | cons c changes ih =>
      rw [List.foldl_cons, ih]
      by_cases hpair : c.pair = pair
      · rw [List.filter_cons_of_pos (by simpa using hpair), List.foldl_cons, Change.replay,
          hpair, Function.update_self]
      · rw [List.filter_cons_of_neg (by simpa using hpair), Change.replay,
          Function.update_of_ne (Ne.symm hpair)]

/-- Replaying databases leaves those alone that are not listed. -/
theorem replayAll_of_notMem {databases : List ((String × String) × List KeyValueEntry)}
    {pair : String × String} (hpair : pair ∉ databases.map Prod.fst) (store : Store) :
    replayAll store databases pair = store pair := by
  induction databases generalizing store with
  | nil => rfl
  | cons db databases ih =>
      rw [List.map_cons, List.mem_cons, not_or] at hpair
      calc replayAll store (db :: databases) pair
        _ = Function.update store db.1 (db.2.foldl KeyValueEntry.replay (store db.1)) pair :=
            ih hpair.2 _
        _ = store pair := Function.update_of_ne hpair.1 _ _

/-- Replaying databases that are listed once each takes each through its own entries. -/
theorem replayAll_of_mem {databases : List ((String × String) × List KeyValueEntry)}
    (hnodup : (databases.map Prod.fst).Nodup) (store : Store)
    {db : (String × String) × List KeyValueEntry} (hdb : db ∈ databases) :
    replayAll store databases db.1 = db.2.foldl KeyValueEntry.replay (store db.1) := by
  induction databases generalizing store with
  | nil => exact absurd hdb List.not_mem_nil
  | cons first databases ih =>
      rw [List.map_cons, List.nodup_cons] at hnodup
      let replayed := Function.update store first.1
        (first.2.foldl KeyValueEntry.replay (store first.1))
      rcases List.mem_cons.mp hdb with rfl | hrest
      · calc replayAll store (db :: databases) db.1
          _ = replayed db.1 := replayAll_of_notMem hnodup.1 replayed
          _ = db.2.foldl KeyValueEntry.replay (store db.1) := Function.update_self ..
      · have hne : db.1 ≠ first.1 := by
          intro heq
          exact hnodup.1 (heq ▸ List.mem_map_of_mem hrest)
        calc replayAll store (first :: databases) db.1
          _ = db.2.foldl KeyValueEntry.replay (replayed db.1) := ih hnodup.2 replayed hrest
          _ = db.2.foldl KeyValueEntry.replay (store db.1) := by
              rw [show replayed db.1 = store db.1 from Function.update_of_ne hne _ _]

/-! ## The maps -/

/-- The entry of a change, with the number of its reading of the clock. -/
def entryOf (env : SnapshotEnv) (c : Change × Nat) : KeyValueEntry where
  key := c.1.key
  value := c.1.value
  timestampSecs := env.clock c.2

/-- A change is added to the entries of its database, in the map of its namespace. -/
theorem addEntry_eq (env : SnapshotEnv) (nsMap : NamespaceMap) (c : Change × Nat) :
    nsMap.addEntry c.1 (env.clock c.2) =
      modify ∅ (modify [] (· ++ [entryOf env c]) c.1.database) c.1.namespace nsMap :=
  rfl

/-- The changes of a database, in the order in which they were added. -/
def changesOf (pair : String × String) (changes : List Change) : List (Change × Nat) :=
  changes.zipIdx.filter fun c => decide (c.1.pair = pair)

/-- Changes of a database are those of its namespace with its name. -/
theorem changesOf_eq (pair : String × String) (changes : List Change) :
    changesOf pair changes = (changes.zipIdx.filter fun c =>
      decide (c.1.namespace = pair.1)).filter fun c => decide (c.1.database = pair.2) := by
  rw [changesOf, List.filter_filter]
  apply List.filter_congr
  intro c _
  rw [← Bool.decide_and]
  apply decide_eq_decide.mpr
  rw [Change.pair, Prod.ext_iff, and_comm]

/-- The changes of a database without their numbers. -/
theorem map_fst_changesOf (pair : String × String) (changes : List Change) :
    (changesOf pair changes).map Prod.fst = changes.filter fun c => decide (c.pair = pair) := by
  calc (changesOf pair changes).map Prod.fst
    _ = (changes.zipIdx.map Prod.fst).filter fun c => decide (c.pair = pair) := by
        rw [List.filter_map]
        rfl
    _ = changes.filter fun c => decide (c.pair = pair) := by rw [List.zipIdx_map_fst]

theorem mem_of_mem_changesOf {pair : String × String} {changes : List Change} {c : Change × Nat}
    (hc : c ∈ changesOf pair changes) : c.1 ∈ changes ∧ c.1.pair = pair := by
  rcases List.mem_filter.mp hc with ⟨hmem, hpair⟩
  exact ⟨List.fst_mem_of_mem_zipIdx hmem, of_decide_eq_true hpair⟩

/-- What the maps hold for a database: the entries of its changes, unless it has none. -/
theorem groupChanges_lookup (env : SnapshotEnv) (changes : List Change)
    (pair : String × String) :
    ((groupChanges env changes).lookup pair.1).bind (fun dbMap => dbMap.lookup pair.2) =
      if changesOf pair changes = [] then none
      else some ((changesOf pair changes).map (entryOf env)) := by
  have hnamespace := lookup_foldl_modify_empty (∅ : DatabaseMap)
    (fun c : Change × Nat => c.1.namespace)
    (fun c => modify [] (· ++ [entryOf env c]) c.1.database) changes.zipIdx pair.1
  have hdatabase := lookup_foldl_modify_empty ([] : List KeyValueEntry)
    (fun c : Change × Nat => c.1.database) (fun c entries => entries ++ [entryOf env c])
    (changes.zipIdx.filter fun c => decide (c.1.namespace = pair.1)) pair.2
  rw [← changesOf_eq] at hdatabase
  unfold groupChanges
  simp only [addEntry_eq]
  rw [hnamespace]
  split_ifs with hnone hempty hempty
  · rfl
  · refine absurd ?_ hempty
    rw [changesOf_eq, hnone, List.filter_nil]
  · rw [Option.bind_some, hdatabase, if_pos hempty]
  · rw [Option.bind_some, hdatabase, if_neg hempty, List.foldl_append_eq_append,
      List.nil_append, ← List.flatMap_def, ← List.map_eq_flatMap]

/-! ## The snapshot -/

/-- A traversal lists what the map holds under its keys. -/
theorem mem_items_iff {env : SnapshotEnv} {path : Option String} {α : Type}
    {map : AList fun _ : String => α} {item : String × α} :
    item ∈ env.items path map ↔ map.lookup item.1 = some item.2 := by
  rw [SnapshotEnv.items, (env.traverse_perm path _).mem_iff, List.mem_map,
    ← Option.mem_def, AList.mem_lookup_iff]
  constructor
  · rintro ⟨entry, hentry, rfl⟩
    exact hentry
  · intro hentry
    exact ⟨⟨item.1, item.2⟩, hentry, rfl⟩

/-- A traversal lists every key once. -/
theorem items_nodup (env : SnapshotEnv) (path : Option String) {α : Type}
    (map : AList fun _ : String => α) : ((env.items path map).map Prod.fst).Nodup := by
  have hperm := (env.traverse_perm path (map.entries.map fun entry => (entry.1, entry.2))).map
    Prod.fst
  rw [SnapshotEnv.items, hperm.nodup_iff, List.map_map]
  exact map.nodupKeys

/-- The databases of the maps, in the order of the traversals. -/
theorem databaseList_snapshots (env : SnapshotEnv) (nsMap : NamespaceMap) :
    databaseList (nsMap.snapshots env) = (env.items none nsMap).flatMap fun n =>
      (env.items (some n.1) n.2).map fun db => ((n.1, db.1), db.2) := by
  rw [databaseList, NamespaceMap.snapshots, List.flatMap_map]
  apply List.flatMap_congr
  intro n _
  rw [List.map_map]
  rfl

/-- The databases of the snapshot are those of the changes, with their entries. -/
theorem mem_databaseList_iff {env : SnapshotEnv} {changes : List Change}
    {db : (String × String) × List KeyValueEntry} :
    db ∈ databaseList ((groupChanges env changes).snapshots env) ↔
      changesOf db.1 changes ≠ [] ∧ db.2 = (changesOf db.1 changes).map (entryOf env) := by
  have hlisted : db ∈ databaseList ((groupChanges env changes).snapshots env) ↔
      ((groupChanges env changes).lookup db.1.1).bind (fun dbMap => dbMap.lookup db.1.2) =
        some db.2 := by
    rw [databaseList_snapshots, List.mem_flatMap, Option.bind_eq_some_iff]
    constructor
    · intro hmem
      rcases hmem with ⟨n, hn, hdb⟩
      rcases List.mem_map.mp hdb with ⟨item, hitem, hpair⟩
      rw [← hpair]
      exact ⟨n.2, mem_items_iff.mp hn, mem_items_iff.mp hitem⟩
    · intro hlookup
      rcases hlookup with ⟨dbMap, hdbMap, hentries⟩
      refine ⟨(db.1.1, dbMap), mem_items_iff.mpr hdbMap, List.mem_map.mpr ?_⟩
      exact ⟨(db.1.2, db.2), mem_items_iff.mpr hentries, rfl⟩
  rw [hlisted, groupChanges_lookup]
  split_ifs with hnone
  · exact iff_of_false not_false fun h => h.1 hnone
  · rw [Option.some_inj, eq_comm]
    exact (and_iff_right hnone).symm

/-- The databases of the snapshot are those that changes were for. -/
theorem mem_pairs_iff (env : SnapshotEnv) {changes : List Change} (pair : String × String) :
    pair ∈ (databaseList ((groupChanges env changes).snapshots env)).map Prod.fst ↔
      pair ∈ changes.map Change.pair := by
  constructor
  · intro hpair
    rcases List.mem_map.mp hpair with ⟨db, hdb, rfl⟩
    rcases List.exists_mem_of_ne_nil _ (mem_databaseList_iff.mp hdb).1 with ⟨c, hc⟩
    exact List.mem_map.mpr ⟨c.1, mem_of_mem_changesOf hc⟩
  · intro hchange
    rcases List.mem_map.mp hchange with ⟨c, hc, rfl⟩
    have hsome : changesOf c.pair changes ≠ [] := by
      intro hnone
      have hmap := map_fst_changesOf c.pair changes
      rw [hnone, List.map_nil] at hmap
      exact List.filter_eq_nil_iff.mp hmap.symm c hc (decide_eq_true rfl)
    have hdb : (c.pair, (changesOf c.pair changes).map (entryOf env)) ∈
        databaseList ((groupChanges env changes).snapshots env) :=
      mem_databaseList_iff.mpr ⟨hsome, rfl⟩
    exact List.mem_map_of_mem hdb

/-- Every database of the snapshot is listed once. -/
theorem databaseList_nodup (env : SnapshotEnv) (nsMap : NamespaceMap) :
    ((databaseList (nsMap.snapshots env)).map Prod.fst).Nodup := by
  rw [databaseList_snapshots, List.map_flatMap, List.nodup_flatMap]
  constructor
  · intro n _
    rw [List.map_map]
    change ((env.items (some n.1) n.2).map (Prod.mk n.1 ∘ Prod.fst)).Nodup
    rw [← List.map_map]
    exact (items_nodup env _ _).map (Prod.mk_right_injective n.1)
  · have hdistinct : (env.items none nsMap).Pairwise fun n n' => n.1 ≠ n'.1 :=
      List.pairwise_map.mp (items_nodup env none nsMap)
    apply hdistinct.imp
    intro n n' hne
    apply List.disjoint_left.mpr
    intro pair hpair hpair'
    rcases List.mem_map.mp hpair with ⟨db, hdb, rfl⟩
    rcases List.mem_map.mp hdb with ⟨item, _, rfl⟩
    rcases List.mem_map.mp hpair' with ⟨db', hdb', heq⟩
    rcases List.mem_map.mp hdb' with ⟨item', _, rfl⟩
    exact hne (congrArg Prod.fst heq).symm

/-- A snapshot has as many entries as its databases together. -/
theorem totalEntries_eq (s : DatabaseSnapshot) :
    s.totalEntries = ((databaseList s.namespaces).map fun db => db.2.length).sum := by
  unfold DatabaseSnapshot.totalEntries databaseList
  induction s.namespaces with
  | nil => rfl
  | cons n namespaces ih =>
      rw [List.map_cons, List.sum_cons, ih, List.flatMap_cons, List.map_append,
        List.sum_append, List.map_map]
      rfl

/-- The snapshot of changes has as many entries as there are changes. -/
theorem sum_databaseList (env : SnapshotEnv) (changes : List Change) :
    ((databaseList ((groupChanges env changes).snapshots env)).map fun db => db.2.length).sum =
      changes.length := by
  let databases := databaseList ((groupChanges env changes).snapshots env)
  have hlength : ∀ db ∈ databases, db.2.length =
      (changes.filter fun c => decide (c.pair = db.1)).length := by
    intro db hdb
    rw [(mem_databaseList_iff.mp hdb).2, List.length_map, ← map_fst_changesOf, List.length_map]
  calc (databases.map fun db => db.2.length).sum
    _ = (databases.map fun db =>
          (changes.filter fun c => decide (c.pair = db.1)).length).sum := by
        rw [List.map_congr_left hlength]
    _ = ((databases.map Prod.fst).map fun pair =>
          (changes.filter fun c => decide (c.pair = pair)).length).sum := by
        rw [List.map_map]
        rfl
    _ = changes.length := sum_length_filter _ _ (databaseList_nodup env _) (mem_pairs_iff env)

/-- The entry of a replayable change replays it. -/
theorem entryOf_replay {c : Change} (hreplayable : c.Replayable) (env : SnapshotEnv) (i : Nat)
    (state : KeyValues) : (entryOf env (c, i)).replay state = c.effect state := by
  simp only [entryOf, KeyValueEntry.replay, Change.effect]
  cases hkey : c.key with
  | none => simp
  | some key =>
      rcases hreplayable key hkey with ⟨hset, hvalue⟩ | ⟨hdelete, hvalue⟩
      · rcases Option.ne_none_iff_exists'.mp hvalue with ⟨value, hvalue⟩
        simp [hset, hvalue]
      · simp [hdelete, hvalue]

/-- The entries of replayable changes replay them. -/
theorem foldl_entryOf {env : SnapshotEnv} {cs : List (Change × Nat)}
    (hreplayable : ∀ c ∈ cs, c.1.Replayable) (state : KeyValues) :
    (cs.map (entryOf env)).foldl KeyValueEntry.replay state =
      (cs.map Prod.fst).foldl (fun state c => c.effect state) state := by
  induction cs generalizing state with
  | nil => rfl
  | cons c cs ih =>
      rw [List.forall_mem_cons] at hreplayable
      rw [List.map_cons, List.foldl_cons, entryOf_replay hreplayable.1, ih hreplayable.2]
      rfl

/-- Replaying the snapshot of replayable changes replays the changes. -/
theorem replayAll_groupChanges (env : SnapshotEnv) {changes : List Change}
    (hreplayable : ∀ c ∈ changes, c.Replayable) (store : Store) :
    replayAll store (databaseList ((groupChanges env changes).snapshots env)) =
      changes.foldl Change.replay store := by
  funext pair
  rw [replay_changes]
  by_cases hpair : pair ∈ changes.map Change.pair
  · rcases List.mem_map.mp ((mem_pairs_iff env pair).mpr hpair) with ⟨db, hdb, rfl⟩
    have hreplayableOf : ∀ c ∈ changesOf db.1 changes, c.1.Replayable :=
      fun c hc => hreplayable c.1 (mem_of_mem_changesOf hc).1
    rw [replayAll_of_mem (databaseList_nodup env _) store hdb, (mem_databaseList_iff.mp hdb).2,
      foldl_entryOf hreplayableOf, map_fst_changesOf]
  · have hfilter : changes.filter (fun c => decide (c.pair = pair)) = [] := by
      apply List.filter_eq_nil_iff.mpr
      intro c hc heq
      exact hpair (of_decide_eq_true heq ▸ List.mem_map_of_mem hc)
    rw [replayAll_of_notMem (fun hlisted => hpair ((mem_pairs_iff env pair).mp hlisted)), hfilter]
    rfl

/-- A snapshot preserves the pending changes, which are taken out: it has their databases
and no others, each with the keys and values of its changes in order, as many entries as
there are changes, and it is valid; and if the changes were made for queries, sets and
deletes, then replaying its databases replays the changes. -/
structure Preserves (env : SnapshotEnv) (s : SnapshotSerializer) : Prop where
  once : ((databaseList (s.buildSnapshot env).2.namespaces).map Prod.fst).Nodup
  pairs : ∀ pair, pair ∈ (databaseList (s.buildSnapshot env).2.namespaces).map Prod.fst ↔
    ∃ c ∈ s.pendingChanges, c.pair = pair
  entries : ∀ db ∈ databaseList (s.buildSnapshot env).2.namespaces,
    (db.2.map fun e => (e.key, e.value)) =
      (s.pendingChanges.filter fun c => decide (c.pair = db.1)).map fun c => (c.key, c.value)
  total : (s.buildSnapshot env).2.totalEntries = s.pendingChanges.length
  valid : (s.buildSnapshot env).2.validate env = true
  emptied : (s.buildSnapshot env).1.pendingChanges = []
  replayed : (∀ c ∈ s.pendingChanges, c.Made) → ∀ store,
    replayAll store (databaseList (s.buildSnapshot env).2.namespaces) =
      s.pendingChanges.foldl Change.replay store

/-- The snapshot of pending changes preserves them. -/
theorem buildSnapshot_preserves (env : SnapshotEnv) (s : SnapshotSerializer) :
    Preserves env s := by
  constructor
  · exact databaseList_nodup env _
  · intro pair
    exact (mem_pairs_iff env pair).trans List.mem_map
  · intro db hdb
    rw [(mem_databaseList_iff.mp hdb).2, ← map_fst_changesOf, List.map_map, List.map_map]
    rfl
  · rw [totalEntries_eq]
    exact sum_databaseList env _
  · exact buildSnapshot_validate env s
  · rfl
  · intro hmade store
    exact replayAll_groupChanges env (fun c hc => (hmade c hc).replayable) store

end IrohSync
