import Memiavl.RootMulti

/-! What a block commits does not depend on the orders in which the multi-store ranges over its
maps. -/
namespace Memiavl.RootMulti
open MapRange List

namespace Store

theorem named_changeSets (rs : Store) :
    Named NamedChangeSet.name StoreKey.name (taken takeChangeSet rs.stores) rs.stores.keys where
  named := by
    intro k _ x hx
    rw [taken] at hx
    cases hs : rs.stores.lookup k with
    | none => simp [hs] at hx
    | some store =>
      rw [hs,Option.map_some,Option.getD_some] at hx
      cases store with
      | iavl st =>
        simp only [takeChangeSet,mem_ite_nil_left,mem_singleton] at hx
        rw [hx.2]
      | transient entries => cases hx
      | memory entries => cases hx
  inj := fun k hk k' hk' _ _ hn =>
    rs.names k (rs.mounted k (Finmap.mem_keys.mp hk)) k' (rs.mounted k' (Finmap.mem_keys.mp hk')) hn

variable {k : StoreKey} {rs : Store} {st : MemiavlStore} {cache : List StoreKVPair}

theorem observed_taken (rs : Store) {p : StoreKVPair}
    (hp : p ∈ taken (fun _ cache => cache) rs.listeners k) :
    p.storeKey = k.name ∧ k ∈ rs.storesParams := by
  rw [taken] at hp
  cases hs : rs.listeners.lookup k with
  | none => simp [hs] at hp
  | some cache =>
    rw [hs,Option.map_some,Option.getD_some] at hp
    exact rs.observed k cache hs p hp

theorem mem_of_taken (rs : Store) (hk : taken (fun _ cache => cache) rs.listeners k ≠ []) :
    k ∈ rs.storesParams := by
  obtain ⟨p,hp⟩ := exists_mem_of_ne_nil _ hk
  exact (rs.observed_taken hp).2

theorem named_caches (rs : Store) :
    Named StoreKVPair.storeKey StoreKey.name (taken (fun _ cache => cache) rs.listeners)
      rs.listeners.keys where
  named := fun _ _ _ hp => (rs.observed_taken hp).1
  inj := fun k _ k' _ hg hg' => rs.names k (rs.mem_of_taken hg) k' (rs.mem_of_taken hg')

theorem named_extraStoreInfo (rs : Store) (s : Finset StoreKey) :
    Named StoreInfo.name StoreKey.name (extraStoreInfo rs.storesParams) s := by
  have hmem : ∀ k, extraStoreInfo rs.storesParams k ≠ [] → k ∈ rs.storesParams := by
    intro k hg
    rw [← Finmap.lookup_isSome]
    cases hs : rs.storesParams.lookup k with
    | none => simp [extraStoreInfo,hs] at hg
    | some typ => rfl
  refine ⟨fun k _ x hx => ?_,fun k _ k' _ hg hg' => rs.names k (hmem k hg) k' (hmem k' hg')⟩
  rw [extraStoreInfo] at hx
  split at hx
  · cases hx
  · cases hx
  · cases hx
  · rw [mem_singleton.mp hx]

theorem handed_congr (rs : Store) (o o' : Order rs.stores.keys) :
    rs.handed o.keys = rs.handed o'.keys := by
  rw [handed,handed,popChangeSets_eq o.nodup,popChangeSets_eq o'.nodup]
  exact rs.named_changeSets.sorted_congr o o' []

theorem flush_congr (rs : Store) (o o' : Order rs.stores.keys) : rs.flush o = rs.flush o' := by
  have hstores : (popChangeSets o.keys rs.stores).2 = (popChangeSets o'.keys rs.stores).2 := by
    rw [popChangeSets_eq o.nodup,popChangeSets_eq o'.nodup]
    exact adjustAll_congr _ o o' rs.stores
  simp only [flush,rs.handed_congr o o',hstores]

theorem forStores_congr (rs : Store) {s : Finset StoreKey} (o o' : Order s)
    (f : StoreKey → CommitStore → CommitStore) :
    rs.forStores o.keys f = rs.forStores o'.keys f := by
  simp only [forStores,adjustAll_congr f o o' rs.stores]

theorem commitInfo_congr (rs : Store) {s : Finset StoreKey} (o o' : Order s)
    (info : Memiavl.CommitInfo) : rs.commitInfo o.keys info = rs.commitInfo o'.keys info := by
  simp only [commitInfo,amendCommitInfo,mergeStoreInfos,
    (rs.named_extraStoreInfo s).sorted_congr o o']

theorem popStateCache_congr (rs : Store) (o o' : Order rs.listeners.keys) :
    rs.popStateCache o = rs.popStateCache o' := by
  have hsorted := rs.named_caches.sorted_congr o o' []
  simp only [nil_append] at hsorted
  simp only [popStateCache,popCaches_eq o.nodup,popCaches_eq o'.nodup,
    adjustAll_congr _ o o' rs.listeners,hsorted]

section
variable (merkle : (Finmap fun _ : Bytes => Bytes) → Bytes) (rs : Store) (os os' : Orders rs)

theorem workingHash_congr : rs.workingHash merkle os = rs.workingHash merkle os' := by
  simp only [workingHash,rs.flush_congr os.flush os'.flush,commitInfo_congr _ os.params os'.params]

theorem commit_congr (acts : List Act) : rs.commit merkle os acts = rs.commit merkle os' acts := by
  simp only [commit,rs.flush_congr os.flush os'.flush,forStores_congr _ os.commit os'.commit,
    forStores_congr _ os.setTree os'.setTree,commitInfo_congr _ os.params os'.params]

end

def cacheWrites (rs : Store) (ws : List (StoreKey × KVPair)) : Store :=
  ws.foldl (fun rs w => rs.cacheWrite w.1 w.2) rs

/-- The writes to one store. -/
def writesTo (key : StoreKey) (ws : List (StoreKey × KVPair)) : List KVPair :=
  (ws.filter fun w => w.1 = key).map Prod.snd

/-- A write changes no key. -/
theorem keys_cacheWrite (rs : Store) (key : StoreKey) (pair : KVPair) :
    (rs.cacheWrite key pair).stores.keys = rs.stores.keys ∧
      (rs.cacheWrite key pair).listeners.keys = rs.listeners.keys ∧
      (rs.cacheWrite key pair).storesParams = rs.storesParams := by
  rw [cacheWrite]
  split
  · exact ⟨keys_adjust _ _ _,keys_adjust _ _ _,rfl⟩
  · exact ⟨rfl,rfl,rfl⟩

theorem mem_cacheWrite (hk : k ∈ rs.stores) (w : StoreKey × KVPair) :
    k ∈ (rs.cacheWrite w.1 w.2).stores := by
  rwa [← Finmap.mem_keys,(rs.keys_cacheWrite w.1 w.2).1,Finmap.mem_keys]

theorem lookup_cacheWrite (hs : rs.stores.lookup k = some (.iavl st)) (w : StoreKey × KVPair) :
    (rs.cacheWrite w.1 w.2).stores.lookup k =
      some (.iavl { st with changeSet := st.changeSet ++ writesTo k [w] }) := by
  by_cases hk : w.1 = k
  · have hmem : w.1 ∈ rs.stores := hk ▸ Finmap.mem_of_lookup_eq_some hs
    rw [cacheWrite,dif_pos hmem]
    simp [write,lookup_adjust,hk,hs,writesTo,CommitStore.write,MemiavlStore.write]
  · rw [cacheWrite]
    split
    · simp [write,lookup_adjust,Ne.symm hk,hs,writesTo,hk]
    · simp [hs,writesTo,hk]

theorem cache_cacheWrite (hk : k ∈ rs.stores) (hc : rs.listeners.lookup k = some cache)
    (w : StoreKey × KVPair) :
    (rs.cacheWrite w.1 w.2).listeners.lookup k = some (cache ++ (writesTo k [w]).map (kept k)) := by
  by_cases hw : w.1 = k
  · rw [cacheWrite,dif_pos (hw ▸ hk)]
    simp [lookup_adjust,hw,hc,writesTo]
  · rw [cacheWrite]
    split
    · simp [lookup_adjust,Ne.symm hw,hc,writesTo,hw]
    · simp [hc,writesTo,hw]

theorem writesTo_cons (k : StoreKey) (w : StoreKey × KVPair) (ws : List (StoreKey × KVPair)) :
    writesTo k (w::ws) = writesTo k [w] ++ writesTo k ws := by
  rw [writesTo,writesTo,writesTo,← map_append,← filter_append,singleton_append]

theorem mem_cacheWrites (hk : k ∈ rs.stores) (ws : List (StoreKey × KVPair)) :
    k ∈ (rs.cacheWrites ws).stores := by
  induction ws generalizing rs with
  | nil => exact hk
  | cons w ws ih => exact ih (mem_cacheWrite hk w)

/-- The pending change set of a store is what was written to it, in the order of the writes. -/
theorem lookup_cacheWrites (hs : rs.stores.lookup k = some (.iavl st))
    (ws : List (StoreKey × KVPair)) :
    (rs.cacheWrites ws).stores.lookup k =
      some (.iavl { st with changeSet := st.changeSet ++ writesTo k ws }) := by
  induction ws generalizing rs st with
  | nil => simpa [cacheWrites,writesTo] using hs
  | cons w ws ih =>
    have := ih (lookup_cacheWrite hs w)
    rwa [append_assoc,← writesTo_cons] at this

theorem cache_cacheWrites (hk : k ∈ rs.stores) (hc : rs.listeners.lookup k = some cache)
    (ws : List (StoreKey × KVPair)) :
    (rs.cacheWrites ws).listeners.lookup k = some (cache ++ (writesTo k ws).map (kept k)) := by
  induction ws generalizing rs cache with
  | nil => simpa [cacheWrites,writesTo] using hc
  | cons w ws ih =>
    have := ih (mem_cacheWrite hk w) (cache_cacheWrite hk hc w)
    rwa [append_assoc,← map_append,← writesTo_cons] at this

theorem handed_pairs (o : Order rs.stores.keys) (hs : rs.stores.lookup k = some (.iavl st)) :
    ((rs.handed o.keys).filter (·.name = k.name)).flatMap NamedChangeSet.changeset =
      st.changeSet := by
  have hmem : k ∈ rs.stores := Finmap.mem_of_lookup_eq_some hs
  have hsorted := rs.named_changeSets.filter_sorted o (Finmap.mem_keys.mpr hmem) fun k' hk' _ hn =>
    rs.names k' (rs.mounted k' (Finmap.mem_keys.mp hk')) k (rs.mounted k hmem) hn
  have hfilter : (rs.handed o.keys).filter (·.name = k.name) = taken takeChangeSet rs.stores k := by
    rw [handed,popChangeSets_eq o.nodup]
    convert hsorted
  rw [hfilter,taken,hs]
  by_cases hcs : st.changeSet = []
  · simp [takeChangeSet,MemiavlStore.popChangeSet,hcs]
  · simp [takeChangeSet,MemiavlStore.popChangeSet,hcs]

/-- The pairs of a mounted store that `PopStateCache` returns are those its listener kept. -/
theorem popStateCache_pairs (o : Order rs.listeners.keys) (hk : k ∈ rs.stores)
    (hc : rs.listeners.lookup k = some cache) :
    (rs.popStateCache o).2.filter (·.storeKey = k.name) = cache := by
  have hmem : k ∈ rs.listeners := Finmap.mem_of_lookup_eq_some hc
  have hsorted := rs.named_caches.filter_sorted o (Finmap.mem_keys.mpr hmem) fun k' _ hg hn =>
    rs.names k' (rs.mem_of_taken hg) k (rs.mounted k hk) hn
  have hfilter : (rs.popStateCache o).2.filter (·.storeKey = k.name) =
      taken (fun _ cache => cache) rs.listeners k := by
    simp only [popStateCache,popCaches_eq o.nodup]
    convert hsorted
  rw [hfilter,taken,hc]
  rfl

/-- The orders Go chooses for the maps of stores, mounted keys and listeners cannot be seen: the
change sets handed to the database, the database and the stores after `flush`, what `WorkingHash`
and `Commit` return and leave (with the same steps of the goroutines), and what `PopStateCache`
returns are the same for any two of them. The pairs of one store that are handed over, and those
its listener returns, are its writes in their order. -/
theorem commit_order_free (merkle : (Finmap fun _ : Bytes => Bytes) → Bytes) (rs : Store)
    (ws : List (StoreKey × KVPair)) (os os' : Orders (rs.cacheWrites ws))
    (ls ls' : Order (rs.cacheWrites ws).listeners.keys) :
    (rs.cacheWrites ws).handed os.flush.keys = (rs.cacheWrites ws).handed os'.flush.keys ∧
    (rs.cacheWrites ws).flush os.flush = (rs.cacheWrites ws).flush os'.flush ∧
    (rs.cacheWrites ws).workingHash merkle os = (rs.cacheWrites ws).workingHash merkle os' ∧
    (∀ acts, (rs.cacheWrites ws).commit merkle os acts = (rs.cacheWrites ws).commit merkle os' acts) ∧
    (rs.cacheWrites ws).popStateCache ls = (rs.cacheWrites ws).popStateCache ls' ∧
    (∀ k st, rs.stores.lookup k = some (.iavl st) →
      (((rs.cacheWrites ws).handed os.flush.keys).filter (·.name = k.name)).flatMap
        NamedChangeSet.changeset = st.changeSet ++ writesTo k ws) ∧
    ∀ k cache, k ∈ rs.stores → rs.listeners.lookup k = some cache →
      ((rs.cacheWrites ws).popStateCache ls).2.filter (·.storeKey = k.name) =
        cache ++ (writesTo k ws).map (kept k) := by
  refine ⟨handed_congr _ _ _,flush_congr _ _ _,workingHash_congr merkle _ os os',
    commit_congr merkle _ os os',popStateCache_congr _ ls ls',?_,?_⟩
  · intro k st hs
    exact handed_pairs os.flush (lookup_cacheWrites hs ws)
  · intro k cache hk hc
    exact popStateCache_pairs ls (mem_cacheWrites hk ws) (cache_cacheWrites hk hc ws)

end Store

namespace Sample

def bank : StoreKey := { id := 0, name := [98] }

def auth : StoreKey := { id := 1, name := [97] }

/-- Two mounted stores over a database with their trees, the first of them with a listener. -/
def mountedStore : Store where
  sys := { db := some { opts := {}, mtree :=
    { initialVersion := 0, trees := [⟨[97],{ version := 0 }⟩,⟨[98],{ version := 0 }⟩]
      treesByName := [([97],0),([98],1)] } } }
  storesParams := (Finmap.singleton bank .iavl).insert auth .iavl
  stores := (Finmap.singleton bank (.iavl { tree := some [98] })).insert auth
    (.iavl { tree := some [97] })
  listeners := Finmap.singleton bank []
  names := by
    have : bank.name ≠ auth.name := by decide
    intro k hk k' hk'
    simp only [Finmap.mem_insert,Finmap.mem_singleton] at hk hk'
    rcases hk with rfl | rfl <;> rcases hk' with rfl | rfl <;> simp [this,this.symm]
  mounted := by simp
  observed := by
    intro k cache hc
    by_cases hk : k = bank
    · subst hk
      simp only [Finmap.lookup_singleton_eq,Option.some.injEq] at hc
      simp [← hc]
    · have : bank ∉ [k] := by simpa using Ne.symm hk
      rw [Finmap.lookup_eq_none.mpr (by simpa using hk)] at hc
      cases hc

def written : List (StoreKey × KVPair) := [(bank,{ key := [1], value := [2] }),
  (auth,{ key := [3], value := [4] }),(bank,{ key := [0], value := [5] })]

def orders (keys : List StoreKey) (h : keys.Perm [bank,auth]) :
    Orders (mountedStore.cacheWrites written) :=
  have hmem : ∀ k, k ∈ keys ↔ k = bank ∨ k = auth := fun k => by simp [h.mem_iff]
  have hnodup : keys.Nodup := h.nodup_iff.mpr (by decide)
  have hstores : ∀ k, k ∈ keys ↔ k ∈ (mountedStore.cacheWrites written).stores.keys := by
    intro k
    simp [hmem,written,Store.cacheWrites,Store.keys_cacheWrite,mountedStore,Finmap.mem_keys,or_comm]
  have hparams : ∀ k, k ∈ keys ↔ k ∈ (mountedStore.cacheWrites written).storesParams.keys := by
    intro k
    simp [hmem,written,Store.cacheWrites,Store.keys_cacheWrite,mountedStore,
      Finmap.mem_keys,or_comm]
  ⟨⟨keys,hnodup,hstores⟩,⟨keys,hnodup,hstores⟩,⟨keys,hnodup,hstores⟩,⟨keys,hnodup,hparams⟩⟩

def listenerOrder : Order (mountedStore.cacheWrites written).listeners.keys where
  keys := [bank]
  nodup := nodup_singleton bank
  mem_iff := by
    intro k
    simp [written,Store.cacheWrites,Store.keys_cacheWrite,mountedStore]

open Store in
/-- Ranged over in either order, the two stores hand over the same change sets. -/
theorem commit_order_free_two :
    (mountedStore.cacheWrites written).handed [bank,auth] =
      (mountedStore.cacheWrites written).handed [auth,bank] :=
  (commit_order_free (fun _ => []) mountedStore written (orders [bank,auth] (List.Perm.refl _))
    (orders [auth,bank] (List.Perm.swap ..)) listenerOrder listenerOrder).1

example : (mountedStore.cacheWrites written).handed [bank,auth] =
    [⟨[97],[{ key := [3], value := [4] }]⟩,
      ⟨[98],[{ key := [1], value := [2] },{ key := [0], value := [5] }]⟩] := by
  decide +kernel

end Sample

end Memiavl.RootMulti
