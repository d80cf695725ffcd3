import Memiavl.LaidHeap
import Memiavl.Library.ValueCache

/-! Reading a tree: `Get`, `Has`, `GetWithIndex` and `GetByIndex`, with the value cache. Whatever
sequence of updates led to the tree, and whatever part of it still is in a snapshot, the reads show
the map that the same updates make. -/
namespace Memiavl

open HeapM LeafTree Option

def newCache (C : ValueCache Bytes Bytes) (cacheSize : ℤ) : Option C.State :=
  if cacheSize = 0 then none else some (C.new cacheSize)

/-- A `Tree` with the fields that only reads use. The cache is one of another package. -/
structure CachedTree (C : ValueCache Bytes Bytes) where
  tree : Tree
  cache : Option C.State
  zeroCopy : Bool

namespace CachedTree

variable {C : ValueCache Bytes Bytes}

def newEmptyTree (version : ℕ) (cacheSize : ℤ) : Option (CachedTree C) := do
  let tree ← Tree.newEmptyTree version
  some ⟨tree,newCache C cacheSize,true⟩

def newFromSnapshot (s : Snapshot) (zeroCopy : Bool) (cacheSize : ℤ) : CachedTree C :=
  ⟨.newFromSnapshot s,newCache C cacheSize,zeroCopy⟩

def copy (t : CachedTree C) (cacheSize : ℤ) : CachedTree C :=
  { t with tree := t.tree.copy.2, cache := newCache C cacheSize }

def set (t : CachedTree C) (key : Bytes) (value : Option Bytes) : HeapM MemNode (CachedTree C) := do
  let tree ← t.tree.set key value
  return { t with tree := tree, cache := t.cache.map fun c => C.add c key (value.getD []) }

def remove (t : CachedTree C) (key : Bytes) : HeapM MemNode (CachedTree C) := do
  let (_,tree) ← t.tree.remove key
  return { t with tree := tree, cache := t.cache.map fun c => C.remove c key }

/-- `SaveVersion`; a failed call leaves the tree as it is. -/
def saveVersion (t : CachedTree C) (updateHash : Bool) : HeapM MemNode (CachedTree C) := do
  match ← t.tree.saveVersion updateHash with
  | .error _ => return t
  | .ok (_,tree) => return { t with tree := tree }

/-- What a caller may keep of a slice that can point into a file. -/
def shown (t : CachedTree C) (bz : Option Bytes) : Option Bytes :=
  if t.zeroCopy then bz else clone bz

@[simp] theorem shown_eq (t : CachedTree C) (bz : Option Bytes) : t.shown bz = bz := by
  simp [shown]

def getWithIndex (t : CachedTree C) (key : Bytes) : HeapM MemNode (Int64 × Option Bytes) :=
  match t.tree.root with
  | none => pure (0,none)
  | some root => do
    let fuel ← t.tree.fuel
    let (value,index) ← root.get key fuel
    return (.ofNat index.toNat,t.shown value)

def getByIndex (t : CachedTree C) (index : Int64) : HeapM MemNode (Option Bytes × Option Bytes) :=
  if maxUint32 < index.toInt then pure (none,none)
  else match t.tree.root with
    | none => pure (none,none)
    | some root => do
      let fuel ← t.tree.fuel
      let (key,value) ← root.getByIndex fuel (.ofInt index.toInt)
      return (t.shown key,t.shown value)

def cached (t : CachedTree C) (key : Bytes) : Option Bytes × CachedTree C :=
  match t.cache with
  | none => (none,t)
  | some c => ((C.get c key).1,{ t with cache := some (C.get c key).2 })

def get (t : CachedTree C) (key : Bytes) : HeapM MemNode (Option Bytes × CachedTree C) :=
  match t.cached key with
  | (some value,t) => pure (some value,t)
  | (none,t) => do
    let (_,value) ← t.getWithIndex key
    match value with
    | none => return (none,t)
    | some value => return (some value,{ t with cache := t.cache.map fun c => C.add c key value })

def has (t : CachedTree C) (key : Bytes) : HeapM MemNode (Bool × CachedTree C) := do
  let (value,t) ← t.get key
  return (value.isSome,t)

/-- A call that may change the tree or its cache. -/
inductive Call
  | set (key : Bytes) (value : Option Bytes)
  | remove (key : Bytes)
  | get (key : Bytes)
  | has (key : Bytes)
  | rootHash
  | saveVersion (updateHash : Bool)
  | setZeroCopy (zeroCopy : Bool)
  | copy (cacheSize : ℤ)

/-- The tree after a call; a run goes on with the copy after `Copy`. -/
def call (t : CachedTree C) : Call → HeapM MemNode (CachedTree C)
  | .set key value => t.set key value
  | .remove key => t.remove key
  | .get key => do return (← t.get key).2
  | .has key => do return (← t.has key).2
  | .rootHash => do
    let _ ← t.tree.rootHash
    return t
  | .saveVersion updateHash => t.saveVersion updateHash
  | .setZeroCopy zeroCopy => pure { t with zeroCopy := zeroCopy }
  | .copy cacheSize => pure (t.copy cacheSize)

def run : List Call → CachedTree C → HeapM MemNode (CachedTree C)
  | [], t => pure t
  | c :: calls, t => do
    let t ← t.call c
    run calls t

/-- What a call does to the map that a tree stands for. -/
def Call.apply (m : Finmap fun _ : Bytes => Bytes) : Call → Finmap fun _ : Bytes => Bytes
  | .set key value => m.insert key (value.getD [])
  | .remove key => m.erase key
  | _ => m

/-- A new tree and the map it holds. -/
inductive Start : CachedTree C → (Finmap fun _ : Bytes => Bytes) → Prop
  | empty {version : ℕ} {cacheSize : ℤ} {t : CachedTree C}
      (ht : newEmptyTree version cacheSize = some t) : Start t ∅
  | snapshot {s : Snapshot} {root : Option Persisted} {m : Finmap fun _ : Bytes => Bytes}
      (zeroCopy : Bool) (cacheSize : ℤ) (hs : s.LaidOut root) (hm : Holds root m) :
      Start (newFromSnapshot s zeroCopy cacheSize) m

end CachedTree

section
open Mixed

variable {root : Option Mixed} {m : Finmap fun _ : Bytes => Bytes}

theorem holds_setRoot (hroot : ∀ t ∈ root, t.Avl) (hm : Holds root m) (key value : Bytes) (s : Stamp) :
    Holds (some (setRoot root key value s)) (m.insert key value) := by
  have hmem : ∀ k v, (k,v) ∈ (setRoot root key value s).toList ↔
      (k,v) = (key,value) ∨ k ≠ key ∧ ∃ t ∈ root, (k,v) ∈ t.toList := by
    intro k v
    cases root with
    | none => simp [setRoot]
    | some t =>
      simpa [setRoot] using (hroot t rfl).search.mem_toList_insert key value s (k,v)
  rw [holds_some]
  intro k v
  rw [hmem,hm k v]
  by_cases hk : k = key
  · subst hk
    simp [Finmap.lookup_insert,eq_comm]
  · simp [Finmap.lookup_insert_of_ne _ hk,hk]

theorem holds_removeRoot (hroot : ∀ t ∈ root, t.Avl) (hm : Holds root m) (key : Bytes) (s : Stamp) :
    Holds (removeRoot root key s).2 (m.erase key) := by
  have hmem : ∀ k v, (∃ t ∈ (removeRoot root key s).2, (k,v) ∈ t.toList) ↔
      k ≠ key ∧ ∃ t ∈ root, (k,v) ∈ t.toList := by
    intro k v
    cases root with
    | none => simp [removeRoot]
    | some t =>
      have herase := (hroot t rfl).search.mem_toList_erase key s
      simp only [removeRoot]
      cases he : t.erase key s with
      | missing =>
        rw [he] at herase
        simpa using fun h => herase (k,v) h
      | gone value =>
        rw [he] at herase
        simp only at herase
        simpa [herase] using fun hk he => absurd he hk
      | found value u nk =>
        rw [he] at herase
        simpa using herase.2 (k,v)
  intro k v
  rw [hmem,hm k v]
  by_cases hk : k = key
  · subst hk
    simp [Finmap.lookup_erase]
  · simp [hk,Finmap.lookup_erase_ne hk]

theorem eq_empty_of_holds (hm : Holds (none : Option Mixed) m) : m = ∅ := by
  refine Finmap.ext_lookup fun k => eq_none_iff_forall_ne_some.mpr fun v hv => ?_
  simpa using (hm k v).mpr hv

end

namespace CachedTree

variable {C : ValueCache Bytes Bytes}

/-- The tree `t` in the heap `h` stands for the map `m`, and so does its cache. -/
structure Inv (h : Heap) (t : CachedTree C) (root : Option Mixed) (F : Finset ℕ)
    (m : Finmap fun _ : Bytes => Bytes) : Prop where
  rep : RootRep h t.tree.root root F
  avl : ∀ u ∈ root, u.Avl
  holds : Holds root m
  cells : h.All LaidCell
  laid : t.tree.Laid
  cache : ∀ c ∈ t.cache, ValueCache.Agrees c fun k => m.lookup k

theorem agrees_newCache (cacheSize : ℤ) (m : Finmap fun _ : Bytes => Bytes) :
    ∀ c ∈ newCache C cacheSize, ValueCache.Agrees c fun k => m.lookup k := by
  unfold newCache
  split_ifs
  · simp
  · simpa using ValueCache.agrees_new cacheSize _

section
variable {h : Heap} {t : CachedTree C} {root : Option Mixed} {F : Finset ℕ}
  {m : Finmap fun _ : Bytes => Bytes}

section
variable (hi : Inv h t root F m)
include hi

theorem Inv.lays {n : Node} (hn : t.tree.root = some n) : ∃ u, root = some u ∧ u.Avl ∧ Lays h n u := by
  obtain ⟨hrep,havl,-,hcells,hlaid,-⟩ := hi
  rw [hn] at hrep
  cases root with
  | none => exact hrep.elim
  | some u => exact ⟨u,rfl,havl u rfl,lays_of_rep hcells hrep (hlaid n hn)⟩

theorem Inv.root_none (hn : t.tree.root = none) : m = ∅ := by
  obtain ⟨hrep,-,hholds,-⟩ := hi
  rw [hn] at hrep
  cases root with
  | none => exact eq_empty_of_holds hholds
  | some u => exact hrep.elim

theorem Inv.getWithIndex_run (key : Bytes) : t.getWithIndex key h =
    some ((.ofNat ((m.keys.filter (· < key)).card % 2^32),m.lookup key),h) := by
  unfold getWithIndex
  cases hroot : t.tree.root with
  | none =>
    obtain rfl := hi.root_none hroot
    rfl
  | some n =>
    obtain ⟨u,rfl,havl,hlays⟩ := hi.lays hroot
    have hget := hlays.get_run havl (Nat.lt_succ_self _) key
    simp only [run_bind,Tree.fuel_run hi.rep,bind_some,elim_some,hget,run_pure,shown_eq,
      UInt32.toNat_ofNat',hi.holds.rank_eq havl.search,hi.holds.lookup_eq]
    congr!

theorem Inv.cached (key : Bytes) :
    Inv h (t.cached key).2 root F m ∧ ∀ v, (t.cached key).1 = some v → m.lookup key = some v := by
  unfold CachedTree.cached
  cases hc : t.cache with
  | none => exact ⟨hi,by simp⟩
  | some c =>
    obtain ⟨hagrees,hhit⟩ := (hi.cache c hc).get key
    exact ⟨{ hi with cache := by simpa using hagrees },hhit⟩

theorem Inv.get_run (key : Bytes) : ∃ t',
    t.get key h = some ((m.lookup key,t'),h) ∧ Inv h t' root F m := by
  obtain ⟨hi,hhit⟩ := hi.cached key
  unfold CachedTree.get
  generalize t.cached key = r at hi hhit
  obtain ⟨_ | v,t⟩ := r
  · simp only [run_bind,hi.getWithIndex_run,bind_some]
    cases hv : m.lookup key with
    | none => exact ⟨t,rfl,hi⟩
    | some v =>
      refine ⟨_,rfl,{ hi with cache := ?_ }⟩
      intro c hc
      obtain ⟨c',hc',rfl⟩ := Option.mem_map.mp hc
      exact (hi.cache c' hc').add hv fun _ _ => rfl
  · exact ⟨t,by rw [hhit v rfl]; rfl,hi⟩

theorem Inv.has_run (key : Bytes) : ∃ t',
    t.has key h = some (((m.lookup key).isSome,t'),h) ∧ Inv h t' root F m := by
  obtain ⟨t',hget,hi'⟩ := hi.get_run key
  exact ⟨t',by simp only [CachedTree.has,run_bind,hget,bind_some,run_pure],hi'⟩

theorem Inv.getByIndex_run (hcard : m.keys.card ≤ 2^32) {i : ℕ} (hlt : i < m.keys.card) :
    ∃ k v, t.getByIndex (.ofNat i) h = some ((some k,some v),h) ∧
      (m.keys.sort (· ≤ ·))[i]? = some k ∧ m.lookup k = some v := by
  have hint : (Int64.ofNat i).toInt = i := Int64.toInt_ofNat_of_lt (by omega)
  cases hroot : t.tree.root with
  | none =>
    obtain rfl := hi.root_none hroot
    simp at hlt
  | some n =>
    obtain ⟨u,rfl,havl,hlays⟩ := hi.lays hroot
    rw [hi.holds.card_keys havl.search] at hcard hlt
    obtain ⟨k,v,hget,hsort,hlookup⟩ := hi.holds.getElem havl.search hlt
    have hindex : (UInt32.ofInt (Int64.ofNat i).toInt).toNat = i := by
      rw [hint,UInt32.ofInt,UInt32.toNat_ofNat']
      omega
    have hrun := hlays.getByIndex_run havl.balanced (Nat.lt_succ_self _) (hindex.symm ▸ hlt) hcard
    refine ⟨k,v,?_,hsort,hlookup⟩
    unfold CachedTree.getByIndex
    rw [if_neg (by rw [hint,maxUint32]; omega),hroot]
    simp only [run_bind,Tree.fuel_run hi.rep,bind_some,elim_some,hrun,run_pure,shown_eq,
      hindex,entryAt,hget,map_some]

end

end

section
variable {h : Heap} {t : CachedTree C} {root : Option Mixed} {F : Finset ℕ}
  {m : Finmap fun _ : Bytes => Bytes}

section
variable (hi : Inv h t root F m)
include hi

theorem Inv.set (key : Bytes) (value : Option Bytes) :
    Wp (t.set key value) h fun t' h' => ∃ root' F', Inv h' t' root' F' (m.insert key (value.getD [])) := by
  refine ((maintains_set hi.laid key value).wp hi.cells (Tree.set_spec hi.rep hi.avl key value)).bind ?_
  rintro _ h' ⟨⟨n,F',rfl,hrep,-⟩,hcells,hlaid⟩
  rw [wp_pure]
  refine ⟨some _,F',hrep,?_,holds_setRoot hi.avl hi.holds key _ _,hcells,hlaid,?_⟩
  · simpa using Mixed.avl_setRoot hi.avl key _ _
  · intro c hc
    obtain ⟨c',hc',rfl⟩ := Option.mem_map.mp hc
    exact (hi.cache c' hc').add (m.lookup_insert) fun k hk => m.lookup_insert_of_ne hk

theorem Inv.remove (key : Bytes) :
    Wp (t.remove key) h fun t' h' => ∃ root' F', Inv h' t' root' F' (m.erase key) := by
  refine ((maintains_remove hi.laid key).wp hi.cells (Tree.remove_spec hi.rep hi.avl key)).bind ?_
  rintro ⟨_,_⟩ h' ⟨⟨n,F',rfl,-,hrep,-⟩,hcells,hlaid⟩
  refine (wp_pure ..).mpr ⟨_,F',hrep,Mixed.avl_removeRoot hi.avl key _,
    holds_removeRoot hi.avl hi.holds key _,hcells,hlaid,?_⟩
  intro c hc
  obtain ⟨c',hc',rfl⟩ := Option.mem_map.mp hc
  exact (hi.cache c' hc').remove fun k hk => Finmap.lookup_erase_ne hk

theorem Inv.rootHash : Wp t.tree.rootHash h fun _ h' => Inv h' t root F m := by
  refine ((maintains_rootHash t.tree).wp hi.cells (Tree.rootHash_spec hi.rep hi.avl)).mono ?_
  rintro _ h' ⟨⟨-,hkeeps⟩,hcells,-⟩
  exact { hi with rep := hi.rep.keeps hkeeps, cells := hcells }

theorem Inv.saveVersion (updateHash : Bool) :
    Wp (t.saveVersion updateHash) h fun t' h' => Inv h' t' root F m := by
  refine ((maintains_saveVersion hi.laid updateHash).wp hi.cells
    (Tree.saveVersion_spec hi.rep hi.avl updateHash)).bind ?_
  rintro _ h' ⟨⟨hkeeps,rfl⟩,hcells,hlaid⟩
  have hi' : Inv h' t root F m := { hi with rep := hi.rep.keeps hkeeps, cells := hcells }
  split_ifs
  · exact (wp_pure ..).mpr hi'
  · exact (wp_pure ..).mpr { hi' with }
  · exact (wp_pure ..).mpr { hi' with }

/-- A call returns, and the tree stands for the map after the same call. -/
theorem Inv.call (c : Call) :
    Wp (t.call c) h fun t' h' => ∃ root' F', Inv h' t' root' F' (c.apply m) := by
  cases c with
  | set key value => exact hi.set key value
  | remove key => exact hi.remove key
  | get key =>
    obtain ⟨t',hget,hi'⟩ := hi.get_run key
    exact wp_bind_of hget ((wp_pure ..).mpr ⟨root,F,hi'⟩)
  | has key =>
    obtain ⟨t',hhas,hi'⟩ := hi.has_run key
    exact wp_bind_of hhas ((wp_pure ..).mpr ⟨root,F,hi'⟩)
  | rootHash => exact hi.rootHash.bind fun _ h' hi' => (wp_pure ..).mpr ⟨root,F,hi'⟩
  | saveVersion updateHash => exact (hi.saveVersion updateHash).mono fun _ h' hi' => ⟨root,F,hi'⟩
  | setZeroCopy zeroCopy => exact (wp_pure ..).mpr ⟨root,F,{ hi with }⟩
  | copy cacheSize =>
    obtain ⟨hcopy,hroot,-⟩ := t.tree.copy_fields
    refine (wp_pure ..).mpr ⟨root,F,?_,hi.avl,hi.holds,hi.cells,?_,agrees_newCache cacheSize m⟩
    · simpa only [CachedTree.copy,hcopy,hroot] using hi.rep
    · simpa only [CachedTree.copy,Tree.Laid,hcopy,hroot] using hi.laid

end

theorem Inv.run (calls : List Call) (hi : Inv h t root F m) :
    Wp (run calls t) h fun t' h' => ∃ root' F', Inv h' t' root' F' (calls.foldl Call.apply m) := by
  induction calls generalizing h t root F m with
  | nil => exact (wp_pure ..).mpr ⟨root,F,hi⟩
  | cons c calls ih =>
    refine (hi.call c).bind ?_
    rintro t' h' ⟨root',F',hi'⟩
    exact ih hi'

theorem Start.inv (hs : Start t m) : ∃ root, Inv {} t root ∅ m := by
  have hempty : ({} : Heap).All LaidCell := by
    intro a c hc
    cases hc
  cases hs with
  | empty ht =>
    unfold newEmptyTree at ht
    obtain ⟨tree,htree,ht⟩ := bind_eq_some_iff.mp ht
    obtain rfl := some.inj ht
    unfold Tree.newEmptyTree at htree
    split_ifs at htree
    obtain rfl := some.inj htree
    exact ⟨none,rfl,by simp,holds_none,hempty,by simp [Tree.Laid],agrees_newCache _ _⟩
  | @snapshot s root m zeroCopy cacheSize hlaid hm =>
    have hholds : Holds (root.map (LeafTree.mapAnn NodeInfo.stamp)) m := by
      intro k v
      rw [← hm k v]
      cases root <;> simp
    refine ⟨_,?_,?_,hholds,hempty,?_,agrees_newCache _ _⟩ <;>
      unfold Snapshot.LaidOut at hlaid <;> cases hroot : s.rootNode <;> cases root <;>
      simp only [hroot] at hlaid
    · simp [newFromSnapshot,Tree.newFromSnapshot,hroot,RootRep]
    · simp only [newFromSnapshot,Tree.newFromSnapshot,hroot,map_some]
      exact hlaid.rep {}
    · simp
    · simpa using (avl_mapAnn ..).mpr hlaid.avl
    · simp [newFromSnapshot,Tree.newFromSnapshot,hroot,Tree.Laid]
    · simpa [newFromSnapshot,Tree.newFromSnapshot,hroot,Tree.Laid] using ⟨_,_,_,hlaid⟩

end

/-- Reading a tree after any calls gives what the map after the same calls says. Ranks come back in
32 bits, and positions are found in trees of up to `2^32` keys. -/
theorem reads_show_map {t₀ : CachedTree C} {m₀ : Finmap fun _ : Bytes => Bytes} (hs : Start t₀ m₀)
    (calls : List Call) :
    let m := calls.foldl Call.apply m₀
    ∃ t h, run calls t₀ {} = some (t,h) ∧
      (∀ key, (∃ t', t.get key h = some ((m.lookup key,t'),h)) ∧
        (∃ t', t.has key h = some (((m.lookup key).isSome,t'),h)) ∧
        t.getWithIndex key h =
          some ((.ofNat ((m.keys.filter (· < key)).card % 2^32),m.lookup key),h)) ∧
      (m.keys.card ≤ 2^32 → ∀ i < m.keys.card, ∃ key value,
        t.getByIndex (.ofNat i) h = some ((some key,some value),h) ∧
        (m.keys.sort (· ≤ ·))[i]? = some key ∧ m.lookup key = some value) := by
  intro m
  obtain ⟨root,hi⟩ := hs.inv
  obtain ⟨t,h,hrun,root',F',hi⟩ := hi.run calls
  refine ⟨t,h,hrun,fun key => ⟨?_,?_,hi.getWithIndex_run key⟩,fun hcard i => hi.getByIndex_run hcard⟩
  · obtain ⟨t',hget,-⟩ := hi.get_run key
    exact ⟨t',hget⟩
  · obtain ⟨t',hhas,-⟩ := hi.has_run key
    exact ⟨t',hhas⟩

/-- The map with these entries. -/
def entryMap (l : List (Bytes × Bytes)) : Finmap fun _ : Bytes => Bytes :=
  l.foldr (fun e m => m.insert e.1 e.2) ∅

theorem lookup_entryMap {l : List (Bytes × Bytes)} (hl : (l.map Prod.fst).Nodup) (k v : Bytes) :
    (k,v) ∈ l ↔ (entryMap l).lookup k = some v := by
  induction l with
  | nil => simp [entryMap]
  | cons e l ih =>
    obtain ⟨hnot,hl⟩ := List.nodup_cons.mp hl
    change _ ↔ ((entryMap l).insert e.1 e.2).lookup k = some v
    by_cases hk : k = e.1
    · subst hk
      have hmem : (e.1,v) ∉ l := fun h => hnot (List.mem_map.mpr ⟨_,h,rfl⟩)
      simp [hmem,Finmap.lookup_insert,Prod.ext_iff,eq_comm]
    · rw [Finmap.lookup_insert_of_ne _ hk,← ih hl]
      simp [Prod.ext_iff,hk]

theorem holds_entryMap {root : Persisted} (havl : root.Avl) :
    Holds (some root) (entryMap root.toList) := by
  have hnodup : (root.toList.map Prod.fst).Nodup := by
    rw [← LeafTree.keys_eq_map_toList]
    exact havl.search.keys_sorted.imp fun h => h.ne
  rw [holds_some]
  exact lookup_entryMap hnodup

theorem reads_show_map_snapshot :
    let i : NodeInfo := ⟨1,emptyHash⟩
    let root : Persisted := .branch 1 2 [7] i (.leaf [3] [] i) (.leaf [7] [1,2] i)
    ∃ s t h, openSnapshot (writeSnapshot 1 (some root)) = .ok s ∧
      run [.remove [3],.get [7],.set [5] (some [9])] (newFromSnapshot s false 2 : CachedTree .lru) {} =
        some (t,h) ∧
      t.getWithIndex [7] h = some ((1,some [1,2]),h) := by
  intro i root
  obtain ⟨s,hs,hlaid⟩ : ∃ s, openSnapshot (writeSnapshot 1 (some root)) = .ok s ∧
      s.LaidOut (some root) := by
    apply laidOut_openSnapshot 1 (some root) <;> simp only [mem_some_iff,forall_eq'] <;> decide
  have hm : Holds (some root) (entryMap root.toList) := holds_entryMap (by decide)
  obtain ⟨t,h,hrun,hreads,-⟩ := reads_show_map (C := .lru) (.snapshot false 2 hlaid hm)
    [.remove [3],.get [7],.set [5] (some [9])]
  refine ⟨s,t,h,hs,hrun,?_⟩
  rw [(hreads [7]).2.2]
  exact congrArg (fun x => some (x,h)) (by decide +kernel)

section
open Bytes

theorem lookup_sets (keys : List Bytes) (m : Finmap fun _ : Bytes => Bytes) (k : Bytes) :
    ((keys.map fun key => Call.set key none).foldl Call.apply m).lookup k =
      if k ∈ keys then some [] else m.lookup k := by
  induction keys generalizing m with
  | nil => simp
  | cons key keys ih =>
    rw [List.map_cons,List.foldl_cons,ih]
    by_cases hk : k = key
    · subst hk
      simp [Call.apply,Finmap.lookup_insert]
    · simp [Call.apply,Finmap.lookup_insert_of_ne _ hk,hk]

theorem card_sets {keys : List Bytes} (hkeys : keys.Nodup) :
    ((keys.map fun key => Call.set key none).foldl Call.apply ∅).keys.card = keys.length := by
  rw [← List.toFinset_card_of_nodup hkeys]
  congr 1
  ext k
  rw [Finmap.mem_keys,Finmap.mem_iff,lookup_sets,List.mem_toFinset]
  by_cases hk : k ∈ keys <;> simp [hk]

theorem nodup_counters {n : ℕ} (hn : n ≤ 256^5) : ((List.range n).map (putLE 5)).Nodup := by
  refine List.Nodup.map_on (fun i hi j hj hij => ?_) List.nodup_range
  have h := congrArg getLE hij
  rw [List.mem_range] at hi hj
  rwa [getLE_putLE,getLE_putLE,Nat.mod_eq_of_lt (by omega),Nat.mod_eq_of_lt (by omega)] at h

/-- The key at position `2^32` cannot be read, however many keys there are. -/
theorem getByIndex_wide : ∃ t₀ : CachedTree .lru, newEmptyTree 0 0 = some t₀ ∧ ∃ calls t h,
    run calls t₀ {} = some (t,h) ∧ 2^32 < (calls.foldl Call.apply ∅).keys.card ∧
    t.getByIndex (.ofNat (2^32)) h = some ((none,none),h) := by
  obtain ⟨t₀,ht₀⟩ : ∃ t₀ : CachedTree .lru, newEmptyTree 0 0 = some t₀ := ⟨_,rfl⟩
  obtain ⟨root,hi⟩ := (Start.empty ht₀).inv
  obtain ⟨t,h,hrun,-⟩ := hi.run (((List.range (2^32+1)).map (putLE 5)).map fun key => .set key none)
  refine ⟨t₀,ht₀,_,t,h,hrun,?_,?_⟩
  · rw [card_sets (nodup_counters (by norm_num)),List.length_map,List.length_range]
    exact Nat.lt_succ_self _
  · have hint : (Int64.ofNat (2^32)).toInt = 2^32 := Int64.toInt_ofNat_of_lt (by norm_num)
    rw [CachedTree.getByIndex,hint,if_pos (by norm_num [maxUint32])]
    rfl

end

/-- What an index meets on the way from the root to the last leaf. -/
def tail (t : CachedTree C) : HeapM MemNode (ℕ × Option (ℕ × ℕ)) :=
  match t.tree.root with
  | none => pure (0,none)
  | some root => do
    let fuel ← t.tree.fuel
    root.tail fuel

section
variable {h : Heap} {t : CachedTree C} {root : Option Mixed} {F : Finset ℕ}
  {m : Finmap fun _ : Bytes => Bytes}

theorem getByIndex_above {i : Int64} (hi : maxUint32 < i.toInt) :
    t.getByIndex i h = some ((none,none),h) := by
  rw [getByIndex,if_pos hi]
  rfl

theorem getByIndex_root {n : Node} (hi : Inv h t root F m) (hroot : t.tree.root = some n) {u : Mixed}
    (hu : root = some u) {i : Int64} (hle : ¬ maxUint32 < i.toInt) :
    t.getByIndex i h = n.getByIndex (u.height+1) (.ofInt i.toInt) h := by
  subst hu
  simp only [getByIndex,if_neg hle,hroot,run_bind,Tree.fuel_run hi.rep,bind_some,
    elim_some,shown_eq]
  cases n.getByIndex (u.height+1) (.ofInt i.toInt) h <;> rfl

theorem Inv.getByIndex_iff (hi : Inv h t root F m) {i : Int64} (hle : ¬ maxUint32 < i.toInt) :
    ∃ width tail, t.tail h = some ((width,tail),h) ∧
      (m.keys.card ≤ 2^32 → width = m.keys.card) ∧
      (t.getByIndex i h = some ((none,none),h) ↔ width ≤ (i.toInt % 2^32).toNat ∧
        ∀ x ∈ tail, (i.toInt % 2^32).toNat+x.2 < 2^32+x.1) := by
  have hindex : (UInt32.ofInt i.toInt).toNat = (i.toInt % 2^32).toNat := by
    rw [UInt32.ofInt,UInt32.toNat_ofNat']
    omega
  cases hroot : t.tree.root with
  | none =>
    obtain rfl := hi.root_none hroot
    exact ⟨0,none,by simp [tail,hroot],by simp,by simp [getByIndex,hle,hroot]⟩
  | some n =>
    obtain ⟨u,rfl,havl,hlays⟩ := hi.lays hroot
    rw [hi.holds.card_keys havl.search,getByIndex_root hi hroot rfl hle,← hindex]
    obtain ⟨width,x,hx,hwidth,hiff⟩ := hlays.tail_run havl.balanced (Nat.lt_succ_self _)
    refine ⟨width,x,?_,hwidth,hiff _⟩
    simp only [tail,hroot,run_bind,Tree.fuel_run hi.rep,bind_some,elim_some]
    exact hx

end

/-- An index gives nothing exactly if it is above all 32-bit numbers, or if its low 32 bits are
behind the last leaf and adding the first leaf of a branch that is still in a snapshot stays in
32 bits. -/
theorem getByIndex_outside_iff {t₀ : CachedTree C} {m₀ : Finmap fun _ : Bytes => Bytes}
    (hs : Start t₀ m₀) (calls : List Call) (i : Int64) :
    let m := calls.foldl Call.apply m₀
    ∃ t h width tail, run calls t₀ {} = some (t,h) ∧ t.tail h = some ((width,tail),h) ∧
      (m.keys.card ≤ 2^32 → width = m.keys.card) ∧
      (t.getByIndex i h = some ((none,none),h) ↔ maxUint32 < i.toInt ∨
        width ≤ (i.toInt % 2^32).toNat ∧ ∀ x ∈ tail, (i.toInt % 2^32).toNat+x.2 < 2^32+x.1) := by
  intro m
  obtain ⟨root,hi⟩ := hs.inv
  obtain ⟨t,h,hrun,root',F',hi⟩ := hi.run calls
  obtain ⟨width,tail,htail,hwidth,-⟩ := hi.getByIndex_iff (i := 0) (by decide)
  refine ⟨t,h,width,tail,hrun,htail,hwidth,?_⟩
  by_cases habove : maxUint32 < i.toInt
  · simp [getByIndex_above habove,habove]
  · obtain ⟨width',tail',htail',-,hiff⟩ := hi.getByIndex_iff habove
    cases htail.symm.trans htail'
    rw [hiff]
    exact (or_iff_right habove).symm

/-- Four keys in a snapshot. -/
def fourKeys : Persisted :=
  let i : NodeInfo := ⟨1,emptyHash⟩
  .branch 2 4 [3] i (.branch 1 2 [2] i (.leaf [1] [10] i) (.leaf [2] [20] i))
    (.branch 1 2 [4] i (.leaf [3] [30] i) (.leaf [4] [40] i))

theorem exists_fourKeys : ∃ s, openSnapshot (writeSnapshot 1 (some fourKeys)) = .ok s ∧
    s.LaidOut (some fourKeys) ∧ s = snapshotOf 1 fourKeys := by
  obtain ⟨s,hs,hlaid⟩ : ∃ s, openSnapshot (writeSnapshot 1 (some fourKeys)) = .ok s ∧
      s.LaidOut (some fourKeys) := by
    apply laidOut_openSnapshot 1 (some fourKeys) <;> simp only [mem_some_iff,forall_eq'] <;> decide
  refine ⟨s,hs,hlaid,?_⟩
  rw [openSnapshot_writeSnapshot (by decide)] at hs
  exact (Except.ok.inj hs).symm

/-- The first key is removed: the way to the last leaf passes one leaf and ends at a branch of the
snapshot, and the index behind the last leaf gives nothing. -/
theorem getByIndex_outside_iff_removed : ∃ s t h,
    openSnapshot (writeSnapshot 1 (some fourKeys)) = .ok s ∧
      run [.remove [1]] (newFromSnapshot s false 0 : CachedTree .lru) {} = some (t,h) ∧
      t.tail h = some ((3,some (1,2)),h) ∧ t.getByIndex 3 h = some ((none,none),h) := by
  obtain ⟨s,hs,hlaid,rfl⟩ := exists_fourKeys
  have hm : Holds (some fourKeys) (entryMap fourKeys.toList) := holds_entryMap (by decide)
  obtain ⟨t,h,width,tail,hrun,htail,-,hiff⟩ := getByIndex_outside_iff (C := .lru)
    (.snapshot false 0 hlaid hm) [.remove [1]] 3
  have hex : (run [.remove [1]] (newFromSnapshot (snapshotOf 1 fourKeys) false 0 : CachedTree .lru)
      {}).bind (fun r => (r.1.tail r.2).map Prod.fst) = some (3,some (1,2)) := by
    decide +kernel
  rw [hrun,bind_some,htail] at hex
  cases hex
  exact ⟨_,t,h,hs,hrun,htail,hiff.mpr (.inr (by decide))⟩

/-- Of the four keys the first is removed, and `GetByIndex(4294967295)` finds it again. -/
theorem getByIndex_finds_removed : ∃ s t h,
    openSnapshot (writeSnapshot 1 (some fourKeys)) = .ok s ∧ s.LaidOut (some fourKeys) ∧
      run [.remove [1]] (newFromSnapshot s false 0 : CachedTree .lru) {} = some (t,h) ∧
      (t.getByIndex 4294967295 h).map Prod.fst = some (some [1],some [10]) ∧
      (t.getByIndex (-1) h).map Prod.fst = some (some [1],some [10]) := by
  obtain ⟨s,hs,hlaid,rfl⟩ := exists_fourKeys
  have hwraps : (run [.remove [1]] (newFromSnapshot (snapshotOf 1 fourKeys) false 0 :
      CachedTree .lru) {}).bind (fun r => (r.1.getByIndex 4294967295 r.2).map Prod.fst) =
      some (some [1],some [10]) := by
    decide +kernel
  have hnegative : (run [.remove [1]] (newFromSnapshot (snapshotOf 1 fourKeys) false 0 :
      CachedTree .lru) {}).bind (fun r => (r.1.getByIndex (-1) r.2).map Prod.fst) =
      some (some [1],some [10]) := by
    decide +kernel
  obtain ⟨⟨t,h⟩,hrun,hwraps⟩ := bind_eq_some_iff.mp hwraps
  rw [hrun,bind_some] at hnegative
  exact ⟨_,t,h,hs,hlaid,hrun,hwraps,hnegative⟩

end CachedTree

end Memiavl
