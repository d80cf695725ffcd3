import Memiavl.Db
import Memiavl.Library.MapRange
import Memiavl.Library.Fallible

/-! `store/rootmulti`: the multi-store of an application over a `DB`. Its maps are finite maps;
where the source ranges over one, the order of the keys is an argument. A panic is an error with
its message. -/
namespace Memiavl

namespace MultiTree

def workingCommitInfo (t : MultiTree) : CommitInfo :=
  t.buildCommitInfo (nextVersion t.lastCommitInfo.version t.initialVersion)

/-- `TreeByName`, as a reference by the name; there is none for an unknown tree. -/
def treeByName (t : MultiTree) (name : Bytes) : Option Bytes :=
  (t.treesByName.lookup name).map fun _ => name

end MultiTree

/-- Steps of the goroutines and of the call that holds the mutex. -/
def Act.internal : Act → Bool
  | .proceed _ | .write _ | .rewrite _ | .prune => true
  | .load _ | .call _ | .crash _ | .interrupt .. => false

/-- A call with the steps taken until it has returned: the reply, and what the user sees of the
trees then. There is none if it has not returned after these steps. -/
def System.await (s : System) (c : Call) (acts : List Act) : Option (System × Reply × View) := do
  let s ← s.step (.call c)
  let s ← Transition.exec System.step (fun _ a => a.internal = true) acts s
  let db ← s.db
  match s.trace.getLast? with
  | some (.returned _ reply view) => if db.phase = .idle then some (s,reply,view) else none
  | _ => none

def Reply.err : Reply → Option String
  | .error e => some e
  | _ => none

namespace RootMulti
open MapRange

/-- Which type of key it is: `KVStoreKey`, `TransientStoreKey` or `MemoryStoreKey`. -/
inductive KeyKind
  | kv
  | transient
  | memory
  deriving DecidableEq

/-- A store key; the map keys of the source are pointers, told apart by `id`. -/
structure StoreKey where
  id : ℕ
  name : Bytes
  kind : KeyKind := .kv
  deriving DecidableEq

inductive StoreType
  | multi
  | db
  | iavl
  | transient
  | memory
  deriving DecidableEq

/-- `memiavlstore.Store`. -/
structure MemiavlStore where
  /-- The tree it reads, by its name in the database. -/
  tree : Option Bytes
  changeSet : ChangeSet := []
  deriving DecidableEq

namespace MemiavlStore

def write (st : MemiavlStore) (pair : KVPair) : MemiavlStore :=
  { st with changeSet := st.changeSet ++ [pair] }

def popChangeSet (st : MemiavlStore) : ChangeSet × MemiavlStore :=
  (st.changeSet,{ st with changeSet := [] })

def setTree (st : MemiavlStore) (tree : Option Bytes) : MemiavlStore := { st with tree }

end MemiavlStore

/-- A `CommitStore`: those that are no trees hold their entries in memory. -/
inductive CommitStore
  | iavl (st : MemiavlStore)
  | transient (entries : Finmap fun _ : Bytes => Bytes)
  | memory (entries : Finmap fun _ : Bytes => Bytes)

namespace CommitStore

def writeEntry (entries : Finmap fun _ : Bytes => Bytes) (pair : KVPair) :
    Finmap fun _ : Bytes => Bytes :=
  if pair.delete then entries.erase pair.key else entries.insert pair.key pair.value

def write (pair : KVPair) : CommitStore → CommitStore
  | .iavl st => .iavl (st.write pair)
  | .transient entries => .transient (writeEntry entries pair)
  | .memory entries => .memory (writeEntry entries pair)

/-- `Commit` of a store that is not a tree; a transient store starts again. -/
def commit : CommitStore → CommitStore
  | .iavl st => .iavl st
  | .transient _ => .transient ∅
  | .memory entries => .memory entries

def setTree (tree : Option Bytes) : CommitStore → CommitStore
  | .iavl st => .iavl (st.setTree tree)
  | store => store

/-- What is left after `PopChangeSet`. -/
def popped : CommitStore → CommitStore
  | .iavl st => .iavl st.popChangeSet.2
  | store => store

end CommitStore

structure CommitID where
  version : ℕ := 0
  hash : Bytes := []
  deriving DecidableEq

structure StoreInfo where
  name : Bytes
  commitId : CommitID := {}
  deriving DecidableEq

structure CommitInfo where
  version : ℕ := 0
  storeInfos : List StoreInfo := []
  deriving DecidableEq

def convertCommitInfo (commitInfo : Memiavl.CommitInfo) : CommitInfo where
  version := commitInfo.version
  storeInfos := commitInfo.storeInfos.map fun info =>
    ⟨info.name,info.commitId.version,info.commitId.hash.1⟩

def mergeStoreInfos (commitInfo : CommitInfo) (storeInfos : List StoreInfo) : CommitInfo where
  version := commitInfo.version
  storeInfos := (commitInfo.storeInfos ++ storeInfos).insertionSort fun a b => a.name ≤ b.name

/-- What `amendCommitInfo` adds for one key. -/
def extraStoreInfo (storesParams : Finmap fun _ : StoreKey => StoreType) (key : StoreKey) :
    List StoreInfo :=
  match storesParams.lookup key with
  | none | some .iavl | some .transient => []
  | some _ => [{ name := key.name }]

def amendCommitInfo (order : List StoreKey) (commitInfo : CommitInfo)
    (storesParams : Finmap fun _ : StoreKey => StoreType) : CommitInfo :=
  mergeStoreInfos commitInfo (order.flatMap (extraStoreInfo storesParams))

/-- The map whose Merkle root is the hash of a commit info: a later info of a name replaces an
earlier one. -/
def CommitInfo.toMap (ci : CommitInfo) : Finmap fun _ : Bytes => Bytes :=
  ci.storeInfos.foldl (fun m info => m.insert info.name info.commitId.hash) ∅

section
variable (merkle : (Finmap fun _ : Bytes => Bytes) → Bytes)

/-- The root of the Merkle tree over the names and hashes, which the SDK builds. -/
def CommitInfo.hash (ci : CommitInfo) : Bytes := merkle ci.toMap

def CommitInfo.commitID (ci : CommitInfo) : CommitID := ⟨ci.version,ci.hash merkle⟩

end

@[ext]
structure Store where
  dir : String := ""
  /-- The database with its goroutines and its directory. -/
  sys : System := {}
  opts : Options := {}
  storesParams : Finmap fun _ : StoreKey => StoreType := ∅
  stores : Finmap fun _ : StoreKey => CommitStore := ∅
  /-- The state cache of each listener. -/
  listeners : Finmap fun _ : StoreKey => List StoreKVPair := ∅
  lastCommitInfo : Option CommitInfo := none
  sdk46Compact : Bool := false
  names : ∀ k ∈ storesParams, ∀ k' ∈ storesParams, k.name = k'.name → k = k'
  mounted : ∀ k ∈ stores, k ∈ storesParams
  observed : ∀ k cache, listeners.lookup k = some cache →
    ∀ p ∈ cache, p.storeKey = k.name ∧ k ∈ storesParams

namespace Store

def newStore (dir : String) (sys : System) (sdk46Compact : Bool) : Store where
  dir := dir
  sys := sys
  sdk46Compact := sdk46Compact
  names := fun k hk => absurd hk Finmap.notMem_empty
  mounted := fun k hk => absurd hk Finmap.notMem_empty
  observed := by simp

def mountStoreWithDB (rs : Store) (key : StoreKey) (typ : StoreType) : Except String Store :=
  if key ∈ rs.storesParams then .error s!"store duplicate store key {nameText key.name}"
  else if h : key.name ∈ rs.storesParams.keys.image StoreKey.name then
    .error s!"store duplicate store key name {nameText key.name}"
  else .ok { rs with
    storesParams := rs.storesParams.insert key typ
    names := by
      have hnew : ∀ k ∈ rs.storesParams, k.name ≠ key.name := fun k hk hn =>
        h (Finset.mem_image.mpr ⟨k,Finmap.mem_keys.mpr hk,hn⟩)
      intro k hk k' hk' hn
      rw [Finmap.mem_insert] at hk hk'
      rcases hk with rfl | hk <;> rcases hk' with rfl | hk'
      · rfl
      · exact absurd hn.symm (hnew k' hk')
      · exact absurd hn (hnew k hk)
      · exact rs.names k hk k' hk' hn
    mounted := fun k hk => Finmap.mem_insert.mpr (.inr (rs.mounted k hk))
    observed := fun k cache hc p hp =>
      (rs.observed k cache hc p hp).imp_right fun hk => Finmap.mem_insert.mpr (.inr hk) }

def addListener (rs : Store) (key : StoreKey) : Store :=
  if h : key ∈ rs.listeners then rs
  else { rs with
    listeners := rs.listeners.insert key []
    observed := by
      intro k cache hc p hp
      by_cases hk : k = key
      · subst hk
        rw [Finmap.lookup_insert,Option.some.injEq] at hc
        simp [← hc] at hp
      · rw [Finmap.lookup_insert_of_ne _ hk] at hc
        exact rs.observed k cache hc p hp }

def addListeners (rs : Store) (keys : List StoreKey) : Store := keys.foldl addListener rs

def write (rs : Store) (key : StoreKey) (pair : KVPair) : Store :=
  { rs with
    stores := adjust rs.stores key (CommitStore.write pair)
    mounted := fun k hk => rs.mounted k (by simpa [← Finmap.mem_keys] using hk) }

/-- What the listener of a store keeps of a pair that was written through it. -/
def kept (key : StoreKey) (pair : KVPair) : StoreKVPair :=
  ⟨key.name,pair.delete,pair.key,pair.value⟩

/-- A write through `CacheMultiStore`, which wires the listener of a store that is mounted. -/
def cacheWrite (rs : Store) (key : StoreKey) (pair : KVPair) : Store :=
  if h : key ∈ rs.stores then
    { rs.write key pair with
      listeners := adjust rs.listeners key (· ++ [kept key pair])
      observed := by
        intro k cache hc p hp
        rw [lookup_adjust] at hc
        by_cases hk : k = key
        · subst hk
          rw [if_pos rfl,Option.map_eq_some_iff] at hc
          obtain ⟨cache,hc,rfl⟩ := hc
          rcases List.mem_append.mp hp with hp | hp
          · exact rs.observed k cache hc p hp
          · obtain rfl := List.mem_singleton.mp hp
            exact ⟨rfl,rs.mounted k h⟩
        · rw [if_neg hk] at hc
          exact rs.observed k cache hc p hp }
  else rs

/-- The commit info of the database as the application sees it. -/
def commitInfo (rs : Store) (order : List StoreKey) (info : Memiavl.CommitInfo) : CommitInfo :=
  if rs.sdk46Compact then amendCommitInfo order (convertCommitInfo info) rs.storesParams
  else convertCommitInfo info

end Store

/-- What `flush` takes from a store. -/
def takeChangeSet (key : StoreKey) : CommitStore → List NamedChangeSet
  | .iavl st =>
    let cs := st.popChangeSet.1
    if cs = [] then [] else [⟨key.name,cs⟩]
  | _ => []

def popChangeSets (order : List StoreKey) (stores : Finmap fun _ : StoreKey => CommitStore) :
    List NamedChangeSet × Finmap fun _ : StoreKey => CommitStore :=
  drain takeChangeSet (fun _ => CommitStore.popped) order stores []

theorem popChangeSets_eq {order : List StoreKey} (hnodup : order.Nodup)
    (stores : Finmap fun _ : StoreKey => CommitStore) :
    popChangeSets order stores = (order.flatMap (taken takeChangeSet stores),
      adjustAll (fun _ => CommitStore.popped) order stores) :=
  drain_eq takeChangeSet _ hnodup stores []

def popCaches (order : List StoreKey) (listeners : Finmap fun _ : StoreKey => List StoreKVPair) :
    List StoreKVPair × Finmap fun _ : StoreKey => List StoreKVPair :=
  drain (fun _ cache => cache) (fun _ _ => []) order listeners []

theorem popCaches_eq {order : List StoreKey} (hnodup : order.Nodup)
    (listeners : Finmap fun _ : StoreKey => List StoreKVPair) :
    popCaches order listeners = (order.flatMap (taken (fun _ cache => cache) listeners),
      adjustAll (fun _ _ => []) order listeners) :=
  drain_eq _ _ hnodup listeners []

/-- The orders of the loops of one call. -/
structure Orders (rs : Store) where
  flush : Order rs.stores.keys
  commit : Order rs.stores.keys
  setTree : Order rs.stores.keys
  params : Order rs.storesParams.keys

namespace Store

/-- The change sets `flush` hands to the database. -/
def handed (rs : Store) (order : List StoreKey) : List NamedChangeSet :=
  (popChangeSets order rs.stores).1.insertionSort fun a b => a.name ≤ b.name

def flush (rs : Store) (order : Order rs.stores.keys) : Option (Store × Option String) := do
  let (sys,reply,_) ← rs.sys.await (.applyChangeSets (rs.handed order.keys)) []
  some ({ rs with
    sys
    stores := (popChangeSets order.keys rs.stores).2
    mounted := fun k hk => rs.mounted k (by
      rwa [popChangeSets_eq order.nodup,← Finmap.mem_keys,keys_adjustAll,
        Finmap.mem_keys] at hk) },reply.err)

/-- A loop over the stores that changes each of them. -/
def forStores (rs : Store) (order : List StoreKey) (f : StoreKey → CommitStore → CommitStore) :
    Store :=
  { rs with
    stores := adjustAll f order rs.stores
    mounted := fun k hk => rs.mounted k (by
      rwa [← Finmap.mem_keys,keys_adjustAll,Finmap.mem_keys] at hk) }

section
variable (merkle : (Finmap fun _ : Bytes => Bytes) → Bytes)

def workingHash (rs : Store) (os : Orders rs) : Option (Store × Except String Bytes) := do
  let (rs,err) ← rs.flush os.flush
  match err with
  | some e => some (rs,.error e)
  | none =>
    let db ← rs.sys.db
    some (rs,.ok ((rs.commitInfo os.params.keys db.mtree.workingCommitInfo).hash merkle))

/-- `Commit`, with the steps taken until `DB.Commit` has returned. -/
def commit (rs : Store) (os : Orders rs) (acts : List Act) :
    Option (Store × Except String CommitID) := do
  let (rs,err) ← rs.flush os.flush
  match err with
  | some e => some (rs,.error e)
  | none =>
    let rs := rs.forStores os.commit.keys fun _ => CommitStore.commit
    let (sys,reply,_) ← rs.sys.await .commit acts
    let rs := { rs with sys }
    match reply.err with
    | some e => some (rs,.error e)
    | none =>
      let db ← sys.db
      let rs := rs.forStores os.setTree.keys fun key =>
        CommitStore.setTree (db.mtree.treeByName key.name)
      let info := rs.commitInfo os.params.keys db.mtree.lastCommitInfo
      some ({ rs with lastCommitInfo := some info },.ok (info.commitID merkle))

end

def popStateCache (rs : Store) (order : Order rs.listeners.keys) : Store × List StoreKVPair :=
  ({ rs with
    listeners := (popCaches order.keys rs.listeners).2
    observed := by
      intro k cache hc
      rw [popCaches_eq order.nodup,lookup_adjustAll order.nodup] at hc
      by_cases hk : k ∈ order.keys
      · rw [if_pos hk,Option.map_eq_some_iff] at hc
        obtain ⟨-,-,rfl⟩ := hc
        simp
      · rw [if_neg hk] at hc
        exact rs.observed k cache hc },
    (popCaches order.keys rs.listeners).1.insertionSort fun a b => a.storeKey ≤ b.storeKey)

end Store

end RootMulti
end Memiavl
