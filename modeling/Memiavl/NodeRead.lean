import Memiavl.Iterator
import Memiavl.Library.TreeMap

/-! `Get` and `GetByIndex` of a node. A node in memory follows the search path; a node of a
snapshot searches the leaf records below it, which stand one behind the other in the leaves file.
Sizes and indices are 32-bit numbers here. -/
namespace Memiavl

open HeapM BinarySearch List Option

namespace PersistedNode

/-- Index of the first leaf below a node, and number of leaves. -/
def leafRange (p : PersistedNode) : Option (UInt32 × UInt32) :=
  if p.isLeaf then some (p.index,1)
  else do
    let data ← p.branchNode
    let preTrees := (NodeLayout.preTrees data).toUInt32
    let count := NodeLayout.size data
    some (getStartLeaf p.index count preTrees,count)

/-- `PersistedNode.Get`: the value, if the key is there, and the number of smaller keys. -/
def get (p : PersistedNode) (key : Bytes) : Option (Option Bytes × UInt32) := do
  let (start,count) ← p.leafRange
  let i ← search (fun i => (p.snapshot.leafKey (start+.ofNat i)).map fun leafKey => key ≤ leafKey)
    (count.toNat+1) 0 count.toNat
  let i := UInt32.ofNat i
  let leaf := i+start
  if leaf ≥ start+count then some (none,i)
  else
    let (nodeKey,value) ← p.snapshot.leafKeyValue leaf
    if nodeKey ≠ key then some (none,i) else some (some value,i)

def getByIndex (p : PersistedNode) (leafIndex : UInt32) : Option (Option Bytes × Option Bytes) :=
  if p.isLeaf then
    if leafIndex ≠ 0 then some (none,none)
    else (p.snapshot.leafKeyValue p.index).map fun e => (some e.1,some e.2)
  else do
    let data ← p.branchNode
    let preTrees := (NodeLayout.preTrees data).toUInt32
    let startLeaf := getStartLeaf p.index (NodeLayout.size data) preTrees
    let endLeaf := getEndLeaf p.index preTrees
    let i := startLeaf+leafIndex
    if i > endLeaf then some (none,none)
    else (p.snapshot.leafKeyValue i).map fun e => (some e.1,some e.2)

end PersistedNode

namespace Node

def get (key : Bytes) : ℕ → Node → HeapM MemNode (Option Bytes × UInt32)
  | 0, _ => lift none
  | _+1, .persisted p => lift (p.get key)
  | fuel+1, .mem a => do
    let n ← load a
    if n.height = 0 then
      if n.key < key then pure (none,1)
      else if key < n.key then pure (none,0)
      else pure (n.value,0)
    else if key < n.key then
      let left ← lift n.left
      get key fuel left
    else
      let right ← lift n.right
      let (value,index) ← get key fuel right
      let rightSize ← right.size
      pure (value,index+.ofNat n.size-.ofNat rightSize)

def getByIndex : ℕ → Node → UInt32 → HeapM MemNode (Option Bytes × Option Bytes)
  | 0, _, _ => lift none
  | _+1, .persisted p, index => lift (p.getByIndex index)
  | fuel+1, .mem a, index => do
    let n ← load a
    if n.height = 0 then
      if index = 0 then pure (some n.key,n.value) else pure (none,none)
    else
      let left ← lift n.left
      let leftSize := UInt32.ofNat (← left.size)
      if index < leftSize then getByIndex fuel left index
      else
        let right ← lift n.right
        getByIndex fuel right (index-leftSize)

end Node

/-- The node is the root of the tree `t`, which the writer laid out from leaf index `l` on. -/
structure PersistedNode.Laid (p : PersistedNode) (t : Persisted) (l b : ℕ) : Prop where
  avl : t.Avl
  stored : Stored p.snapshot t l b
  root : p = storedRoot p.snapshot t l b
  branches : b ≤ l
  waiting : l-b+t.waiting ≤ 256
  leaves : l+t.leafCount < 2^32

theorem Stored.leafKeyValue {s : Snapshot} {t : Persisted} {l b i : ℕ} {e : Bytes × Bytes}
    (hs : Stored s t l b) (hi : t.toList[i]? = some e) : s.leafKeyValue (.ofNat (l+i)) = some e := by
  induction t generalizing l b i with
  | leaf key value info =>
    obtain ⟨rfl,rfl⟩ : i = 0 ∧ (key,value) = e := by
      cases i with
      | zero => simpa using hi
      | succ i => simp at hi
    exact hs.2.2
  | branch height size key info left right ihl ihr =>
    have hlen := left.length_toList
    rw [LeafTree.toList_branch] at hi
    by_cases hlt : i < left.leafCount
    · rw [getElem?_append_left (by omega)] at hi
      exact ihl hs.1 hi
    · rw [getElem?_append_right (by omega),hlen] at hi
      have h := ihr hs.2.1 hi
      rwa [show l+left.leafCount+(i-left.leafCount) = l+i by omega] at h

/-- The entry at a position, as a reader gets it. -/
def entryAt (entries : List (Bytes × Bytes)) (i : ℕ) : Option Bytes × Option Bytes :=
  (entries[i]?.map Prod.fst,entries[i]?.map Prod.snd)

namespace PersistedNode

variable {p : PersistedNode} {t : Persisted} {l b : ℕ}

section
variable (hp : p.Laid t l b)
include hp

theorem Laid.leafKeyValue {i : ℕ} {e : Bytes × Bytes} (hi : t.toList[i]? = some e) :
    p.snapshot.leafKeyValue (.ofNat l+.ofNat i) = some e := by
  rw [← UInt32.ofNat_add]
  exact hp.stored.leafKeyValue hi

theorem Laid.record (hleaf : p.isLeaf = false) : ∃ data,
    p.branchNode = some data ∧ NodeLayout.size data = .ofNat t.leafCount ∧
    getStartLeaf p.index (NodeLayout.size data) (NodeLayout.preTrees data).toUInt32 = .ofNat l ∧
    getEndLeaf p.index (NodeLayout.preTrees data).toUInt32 = .ofNat (l+t.leafCount-1) := by
  obtain ⟨havl,hstored,hroot,hb,hwaiting,hleaves⟩ := hp
  cases t with
  | leaf key value i =>
    rw [hroot] at hleaf
    cases hleaf
  | branch height size key i left right =>
    have hsize : size = left.leafCount+right.leafCount := havl.balanced.size_eq
    have hpos := leafCount_pos left
    have hpos' := leafCount_pos right
    have hpre : l-b < 256 := by simp only [LeafTree.waiting] at hwaiting; omega
    have hindex : p.index = .ofNat (b+(left.leafCount+right.leafCount)-2) := by rw [hroot]; rfl
    refine ⟨_,by rw [branchNode,hindex]; exact hstored.2.2,?_,?_,?_⟩
    · rw [size_branchRecord,hsize]
      rfl
    · rw [size_branchRecord,preTrees_branchRecord,toUInt32_ofNat hpre,hindex,hsize]
      exact getStartLeaf_stored hb (by omega)
    · rw [preTrees_branchRecord,toUInt32_ofNat hpre,hindex]
      exact getEndLeaf_stored hb (by omega)

theorem Laid.leafRange : p.leafRange = some (.ofNat l,.ofNat t.leafCount) := by
  cases hleaf : p.isLeaf with
  | false =>
    obtain ⟨data,hdata,hsize,hstart,-⟩ := hp.record hleaf
    rw [hsize] at hstart
    simp only [PersistedNode.leafRange,hleaf,Bool.false_eq_true,if_false,hdata,bind_eq_bind,
      bind_some,hstart,hsize]
  | true =>
    cases t with
    | leaf key value i =>
      rw [PersistedNode.leafRange,if_pos hleaf,hp.root]
      rfl
    | branch height size key i left right =>
      rw [hp.root] at hleaf
      cases hleaf

/-- The binary search ends at the rank of the key. -/
theorem Laid.search (key : Bytes) :
    BinarySearch.search (fun i => (p.snapshot.leafKey (.ofNat l+.ofNat i)).map
      fun leafKey => decide (key ≤ leafKey)) (t.leafCount+1) 0 t.leafCount =
    some (rank key t.keys) := by
  have hlen := t.length_keys
  have hsorted := hp.avl.search.keys_sorted
  refine search_eq (Nat.zero_le _) (hlen ▸ rank_le_length key t.keys) (fun x _ hx => ?_) (by omega)
  have hlist := t.length_toList
  obtain ⟨⟨k,v⟩,hget⟩ : ∃ e, t.toList[x]? = some e := ⟨_,getElem?_eq_getElem (by omega)⟩
  have hkey : t.keys[x]? = some k := by rw [LeafTree.keys_eq_map_toList,getElem?_map,hget]; rfl
  obtain ⟨hxlen,rfl⟩ := List.getElem?_eq_some_iff.mp hkey
  rw [leafKey_of_leafKeyValue (hp.leafKeyValue hget),map_some,some.injEq,
    decide_eq_decide]
  exact le_getElem_iff hsorted hxlen

theorem Laid.get_eq (key : Bytes) :
    p.get key = some (t.toList.lookup key,.ofNat (rank key t.keys)) := by
  have hlen := t.length_toList
  have hrank : rank key t.keys ≤ t.leafCount := t.length_keys ▸ rank_le_length key t.keys
  have hleaves := hp.leaves
  have hsorted := hp.avl.search.keys_sorted
  have hcount : (UInt32.ofNat t.leafCount).toNat = t.leafCount := by
    rw [UInt32.toNat_ofNat']; omega
  have hbound : UInt32.ofNat (rank key t.keys)+.ofNat l ≥ .ofNat l+.ofNat t.leafCount ↔
      t.leafCount ≤ rank key t.keys := by
    rw [ge_iff_le,UInt32.le_iff_toNat_le,UInt32.toNat_add,UInt32.toNat_add]
    simp only [UInt32.toNat_ofNat']
    omega
  rw [LeafTree.keys_eq_map_toList] at hsorted
  have hlookup := LeafTree.lookup_eq_getElem hsorted key
  rw [← LeafTree.keys_eq_map_toList] at hlookup
  simp only [PersistedNode.get,hp.leafRange,bind_eq_bind,bind_some,hcount,hp.search key,
    hbound,hlookup]
  by_cases hall : t.leafCount ≤ rank key t.keys
  · rw [if_pos hall,getElem?_eq_none (by omega)]
    rfl
  · obtain ⟨e,hget⟩ : ∃ e, t.toList[rank key t.keys]? = some e :=
      ⟨_,getElem?_eq_getElem (by omega)⟩
    rw [if_neg hall,add_comm,hp.leafKeyValue hget,hget,bind_some,bind_some]
    by_cases hkey : e.1 = key
    · simp [hkey]
    · simp [hkey]

/-- `GetByIndex` within the 32 bits of a leaf index. -/
theorem Laid.getByIndex_eq {index : UInt32} (hindex : l+index.toNat < 2^32) :
    p.getByIndex index = some (entryAt t.toList index.toNat) := by
  have hlen := t.length_toList
  have hleaves := hp.leaves
  cases hleaf : p.isLeaf with
  | true =>
    cases t with
    | leaf key value i =>
      have hkv : p.snapshot.leafKeyValue p.index = some (key,value) := by
        have h := hp.leafKeyValue (show [(key,value)][0]? = some (key,value) from rfl)
        have hpi : p.index = .ofNat l := by rw [hp.root]; rfl
        simpa [hpi] using h
      rw [PersistedNode.getByIndex,if_pos hleaf,hkv]
      by_cases h0 : index = 0
      · simp [h0,entryAt]
      · have hne : index.toNat ≠ 0 := fun h => h0 (UInt32.toNat_inj.mp h)
        rw [if_pos h0,entryAt,getElem?_eq_none (by simp; omega)]
        rfl
    | branch height size key i left right =>
      rw [hp.root] at hleaf
      cases hleaf
  | false =>
    obtain ⟨data,hdata,-,hstart,hend⟩ := hp.record hleaf
    have hpos := leafCount_pos t
    have hbound : UInt32.ofNat l+index > .ofNat (l+t.leafCount-1) ↔ t.leafCount ≤ index.toNat := by
      rw [gt_iff_lt,UInt32.lt_iff_toNat_lt,UInt32.toNat_add]
      simp only [UInt32.toNat_ofNat']
      omega
    simp only [PersistedNode.getByIndex,hleaf,Bool.false_eq_true,if_false,hdata,bind_eq_bind,
      bind_some,hstart,hend,hbound]
    by_cases hout : t.leafCount ≤ index.toNat
    · rw [if_pos hout,entryAt,getElem?_eq_none (by omega)]
      rfl
    · obtain ⟨e,hget⟩ : ∃ e, t.toList[index.toNat]? = some e := ⟨_,getElem?_eq_getElem (by omega)⟩
      have hkv := hp.leafKeyValue hget
      rw [UInt32.ofNat_toNat] at hkv
      rw [if_neg hout,hkv,entryAt,hget]
      rfl

/-- An index that is too large for the 32 bits finds a leaf in front of the node, or none that can
be read. -/
theorem Laid.getByIndex_wraps (hleaf : p.isLeaf = false) {index : UInt32}
    (hindex : 2^32 ≤ l+index.toNat) : p.getByIndex index ≠ some (none,none) := by
  have hleaves := hp.leaves
  have hpos := leafCount_pos t
  obtain ⟨data,hdata,-,hstart,hend⟩ := hp.record hleaf
  have hbound : ¬ UInt32.ofNat l+index > .ofNat (l+t.leafCount-1) := by
    rw [gt_iff_lt,UInt32.lt_iff_toNat_lt,UInt32.toNat_add]
    simp only [UInt32.toNat_ofNat']
    have := index.toNat_lt
    omega
  simp only [PersistedNode.getByIndex,hleaf,Bool.false_eq_true,if_false,hdata,bind_eq_bind,
    bind_some,hstart,hend,if_neg hbound]
  cases p.snapshot.leafKeyValue (.ofNat l+index) <;> simp

end

end PersistedNode

theorem PersistedNode.Laid.rep {p : PersistedNode} {t : Persisted} {l b : ℕ} (hp : p.Laid t l b)
    (h : Heap) : Rep h (.persisted p) (t.mapAnn NodeInfo.stamp) ∅ := by
  obtain ⟨havl,hstored,hroot,hb,hwaiting,hleaves⟩ := hp
  have hm := havl.balanced.measured
  have hheight : t.height < 256 := heightFits havl.balanced (by omega)
  have hwalk := @walk_storedRoot_eq _ _ _ _ (t.depth+1) havl.exact
    (hm.every_height_le.mono fun u hu => by omega) hstored hb hleaves (by omega)
  rw [if_pos (Nat.lt_succ_self _),← hroot] at hwalk
  exact rep_persisted hwalk

/-- The nodes below `n` form the tree, and nodes of a snapshot stand where its writer put them. -/
def Lays (h : Heap) : Node → Mixed → Prop
  | .persisted p, t => ∃ u l b, p.Laid u l b ∧ t = u.mapAnn NodeInfo.stamp
  | .mem a, .leaf key value s => (Node.mem a).IsLeaf h key value s
  | .mem a, .branch height size key s left right => ∃ l r,
    (Node.mem a).IsBranch h height size key s l r ∧ Lays h l left ∧ Lays h r right

theorem lays_persisted {h : Heap} {p : PersistedNode} {t : Mixed} : Lays h (.persisted p) t ↔
    ∃ u l b, p.Laid u l b ∧ t = u.mapAnn NodeInfo.stamp := by
  cases t <;> exact Iff.rfl

theorem Reads.size_run {h : Heap} {n : Node} {t : Mixed} (hn : Reads h n t) :
    n.size h = some (t.size,h) := by
  cases t with
  | leaf key value s => exact Node.IsLeaf.size_run hn
  | branch height size key s left right =>
    obtain ⟨l,r,hn,-⟩ := hn
    exact hn.size_run

theorem Lays.reads {h : Heap} {n : Node} {t : Mixed} (hn : Lays h n t) : Reads h n t := by
  induction t generalizing n with
  | leaf key value s =>
    cases n with
    | mem a => exact hn
    | persisted p =>
      obtain ⟨u,l,b,hp,hu⟩ := hn
      exact hu ▸ (hp.rep h).reads
  | branch height size key s left right ihl ihr =>
    cases n with
    | mem a =>
      obtain ⟨l,r,hn,hl,hr⟩ := hn
      exact ⟨l,r,hn,ihl hl,ihr hr⟩
    | persisted p =>
      obtain ⟨u,l,b,hp,hu⟩ := hn
      exact hu ▸ (hp.rep h).reads

theorem toNat_sub_ofNat {index : UInt32} {n : ℕ} (hn : n % 2^32 ≤ index.toNat) :
    (index-.ofNat n).toNat = index.toNat-n % 2^32 := by
  have := index.toNat_lt
  rw [UInt32.toNat_sub,UInt32.toNat_ofNat']
  omega

section
variable {h : Heap} {n : Node} {t : Mixed} {fuel : ℕ}

theorem get_persisted {p : PersistedNode} (hn : Lays h (.persisted p) t) (key : Bytes) :
    (Node.persisted p).get key (fuel+1) h =
      some ((t.toList.lookup key,.ofNat (rank key t.keys)),h) := by
  obtain ⟨u,l,b,hp,rfl⟩ := lays_persisted.mp hn
  simp [Node.get,hp.get_eq]

/-- `Get` finds the value of the key and the number of smaller keys, in 32 bits. -/
theorem Lays.get_run (hn : Lays h n t) (ht : t.Avl) (hfuel : t.height < fuel) (key : Bytes) :
    n.get key fuel h = some ((t.toList.lookup key,.ofNat (rank key t.keys)),h) := by
  induction t generalizing n fuel with
  | leaf k v s =>
    obtain ⟨fuel,rfl⟩ : ∃ f, fuel = f+1 := ⟨fuel-1,by omega⟩
    cases n with
    | persisted p => exact get_persisted hn key
    | mem a =>
      obtain ⟨c,hc,h0,-,rfl,hv,-⟩ := hn
      simp only [Node.get,run_bind,load_of hc,bind_some,h0,if_true,LeafTree.toList_leaf,
        LeafTree.keys_leaf,rank_cons,rank_nil,Nat.zero_add,lookup_cons,lookup_nil]
      rcases lt_trichotomy c.key key with hlt | rfl | hgt
      · have hne : (key == c.key) = false := by simpa using hlt.ne'
        simp [hlt,hne]
      · simp [hv]
      · have hne : (key == c.key) = false := by simpa using hgt.ne
        simp [hgt,hne,not_lt.mpr hgt.le]
  | branch height size k s left right ihl ihr =>
    obtain ⟨fuel,rfl⟩ : ∃ f, fuel = f+1 := ⟨fuel-1,by omega⟩
    cases n with
    | persisted p => exact get_persisted hn key
    | mem a =>
      obtain ⟨l,r,⟨c,hc,rfl,h0,rfl,rfl,hcl,hcr,-⟩,hl,hr⟩ := hn
      obtain ⟨⟨hsl,hsr,hk,hlt⟩,hbl,hbr,hheight,hsize,-⟩ := ht
      have hle : ∀ x ∈ right.keys, c.key ≤ x := fun x hx => hk ▸ hsr.minKey_le hx
      rw [LeafTree.height_branch] at hfuel
      simp only [Node.get,run_bind,load_of hc,bind_some,h0,if_false,LeafTree.toList_branch,
        LeafTree.keys_branch]
      by_cases hkey : key < c.key
      · rw [if_pos hkey,LeafTree.lookup_left hle hkey,LeafTree.rank_left hle hkey]
        simp only [run_bind,hcl,lift_some,bind_some]
        exact ihl hl ⟨hsl,hbl⟩ (by omega)
      · have hright := @ihr r fuel hr ⟨hsr,hbr⟩ (by omega)
        rw [if_neg hkey,LeafTree.lookup_right hlt hkey,LeafTree.rank_right hlt hkey]
        simp only [run_bind,hcr,lift_some,bind_some,hright,hr.reads.size_run,run_pure,
          some.injEq,Prod.mk.injEq,true_and,and_true]
        rw [hsize,hbl.size_eq,hbr.size_eq]
        apply UInt32.toNat_inj.mp
        simp only [UInt32.toNat_sub,UInt32.toNat_add,UInt32.toNat_ofNat']
        omega

theorem getByIndex_branch {a height size : ℕ} {k : Bytes} {s : Stamp} {l r : Node} {left : Mixed}
    (hn : (Node.mem a).IsBranch h height size k s l r) (hl : Lays h l left) (hbl : left.Balanced)
    (index : UInt32) :
    (Node.mem a).getByIndex (fuel+1) index h =
      if index.toNat < left.leafCount % 2^32 then l.getByIndex fuel index h
      else r.getByIndex fuel (index-.ofNat left.leafCount) h := by
  obtain ⟨c,hc,rfl,h0,-,-,hcl,hcr,-⟩ := hn
  have hlt : index < UInt32.ofNat left.leafCount ↔ index.toNat < left.leafCount % 2^32 := by
    rw [UInt32.lt_iff_toNat_lt,UInt32.toNat_ofNat']
  simp only [Node.getByIndex,run_bind,load_of hc,bind_some,h0,if_false,hcl,lift_some,
    hl.reads.size_run,hbl.size_eq,hlt]
  split
  · rfl
  · simp only [run_bind,hcr,lift_some,bind_some]

theorem entryAt_append_left {xs ys : List (Bytes × Bytes)} {i : ℕ} (hi : i < xs.length) :
    entryAt (xs ++ ys) i = entryAt xs i := by
  simp only [entryAt,getElem?_append_left hi]

theorem entryAt_append_right {xs ys : List (Bytes × Bytes)} {i : ℕ} (hi : xs.length ≤ i) :
    entryAt (xs ++ ys) i = entryAt ys (i-xs.length) := by
  simp only [entryAt,getElem?_append_right hi]

theorem getByIndex_persisted {p : PersistedNode} (hn : Lays h (.persisted p) t) {index : UInt32}
    (hindex : index.toNat < t.leafCount) :
    (Node.persisted p).getByIndex (fuel+1) index h = some (entryAt t.toList index.toNat,h) := by
  obtain ⟨u,l,b,hp,rfl⟩ := lays_persisted.mp hn
  have hleaves := hp.leaves
  rw [LeafTree.leafCount_mapAnn] at hindex
  simp [Node.getByIndex,hp.getByIndex_eq (show l+index.toNat < 2^32 by omega)]

theorem Lays.getByIndex_run (hn : Lays h n t) (ht : t.Balanced) (hfuel : t.height < fuel)
    {index : UInt32} (hindex : index.toNat < t.leafCount) (hcount : t.leafCount ≤ 2^32) :
    n.getByIndex fuel index h = some (entryAt t.toList index.toNat,h) := by
  induction t generalizing n fuel index with
  | leaf k v s =>
    obtain ⟨fuel,rfl⟩ : ∃ f, fuel = f+1 := ⟨fuel-1,by omega⟩
    cases n with
    | persisted p => exact getByIndex_persisted hn hindex
    | mem a =>
      obtain ⟨c,hc,h0,-,rfl,hv,-⟩ := hn
      have hzero : index = 0 := UInt32.toNat_inj.mp (by simpa [LeafTree.leafCount] using hindex)
      simp [Node.getByIndex,run_bind,load_of hc,h0,hzero,entryAt,hv]
  | branch height size k s left right ihl ihr =>
    obtain ⟨fuel,rfl⟩ : ∃ f, fuel = f+1 := ⟨fuel-1,by omega⟩
    cases n with
    | persisted p => exact getByIndex_persisted hn hindex
    | mem a =>
      obtain ⟨l,r,hn,hl,hr⟩ := hn
      obtain ⟨hbl,hbr,hheight,-⟩ := ht
      have hpos := leafCount_pos right
      have hlen := left.length_toList
      rw [LeafTree.height_branch] at hfuel
      rw [LeafTree.leafCount] at hindex hcount
      have hmod : left.leafCount % 2^32 = left.leafCount := Nat.mod_eq_of_lt (by omega)
      rw [getByIndex_branch hn hl hbl,hmod,LeafTree.toList_branch]
      split
      · rename_i hlt
        rw [entryAt_append_left (hlen ▸ hlt)]
        exact ihl hl hbl (by omega) hlt (by omega)
      · rename_i hge
        have hsub : (index-.ofNat left.leafCount).toNat = index.toNat-left.leafCount := by
          rw [toNat_sub_ofNat (by omega),hmod]
        rw [entryAt_append_right (hlen ▸ not_lt.mp hge),hlen,← hsub]
        exact ihr hr hbr (by omega) (by omega) (by omega)

end

/-- What an index meets on the way down to the right: the number of leaves up to the end of the node
where the way ends, and if this is a branch of a snapshot, the number of leaves in front of it and
the index of its first leaf in the leaves file. Sizes of left subtrees count modulo `2^32`. -/
def Node.tail : ℕ → Node → HeapM MemNode (ℕ × Option (ℕ × ℕ))
  | 0, _ => lift none
  | _+1, .persisted p =>
    if p.isLeaf then pure (1,none)
    else do
      let (start,count) ← lift p.leafRange
      pure (count.toNat,some (0,start.toNat))
  | fuel+1, .mem a => do
    let n ← load a
    if n.height = 0 then pure (1,none)
    else
      let left ← lift n.left
      let leftSize := (← left.size) % 2^32
      let right ← lift n.right
      let (width,tail) ← tail fuel right
      pure (leftSize+width,tail.map fun t => (leftSize+t.1,t.2))

section
variable {h : Heap} {n : Node} {t : Mixed} {fuel : ℕ}

theorem entryAt_ne {xs : List (Bytes × Bytes)} {i : ℕ} (hi : i < xs.length) :
    entryAt xs i ≠ (none,none) := by
  simp [entryAt,getElem?_eq_getElem hi]

theorem leafCount_lt_of_persisted {p : PersistedNode} (hn : Lays h (.persisted p) t) :
    t.leafCount < 2^32 := by
  obtain ⟨u,l,b,hp,rfl⟩ := lays_persisted.mp hn
  have hleaves := hp.leaves
  rw [LeafTree.leafCount_mapAnn]
  omega

/-- An index below the size modulo `2^32` finds a leaf, even if it is another one in a tree that
has more leaves. -/
theorem Lays.getByIndex_ne (hn : Lays h n t) (ht : t.Balanced) (hfuel : t.height < fuel)
    {index : UInt32} (hindex : index.toNat < t.leafCount % 2^32) :
    n.getByIndex fuel index h ≠ some ((none,none),h) := by
  -- In a tree of at most `2^32` leaves the index is a position.
  have hsmall : ∀ {n t fuel} {index : UInt32}, Lays h n t → t.Balanced → t.height < fuel →
      index.toNat < t.leafCount % 2^32 → t.leafCount ≤ 2^32 →
      n.getByIndex fuel index h ≠ some ((none,none),h) := by
    intro n t fuel index hn ht hfuel hindex hcount
    have hlt : index.toNat < t.leafCount := hindex.trans_le (Nat.mod_le ..)
    rw [hn.getByIndex_run ht hfuel hlt hcount]
    simpa using entryAt_ne (t.length_toList ▸ hlt)
  induction t generalizing n fuel index with
  | leaf k v s => exact hsmall hn ht hfuel hindex (by simp [LeafTree.leafCount])
  | branch height size k s left right ihl ihr =>
    cases n with
    | persisted p => exact hsmall hn ht hfuel hindex (leafCount_lt_of_persisted hn).le
    | mem a =>
      obtain ⟨fuel,rfl⟩ : ∃ f, fuel = f+1 := ⟨fuel-1,by omega⟩
      obtain ⟨l,r,hn,hl,hr⟩ := hn
      obtain ⟨hbl,hbr,hheight,-⟩ := ht
      rw [LeafTree.height_branch] at hfuel
      rw [LeafTree.leafCount] at hindex
      rw [getByIndex_branch hn hl hbl]
      split
      · rename_i hlt
        exact ihl hl hbl (by omega) hlt
      · rename_i hge
        refine ihr hr hbr (by omega) ?_
        rw [toNat_sub_ofNat (not_lt.mp hge)]
        omega

variable (fuel) in
theorem tail_persisted {p : PersistedNode} (hn : Lays h (.persisted p) t) : ∃ tail,
    (Node.persisted p).tail (fuel+1) h = some ((t.leafCount,tail),h) ∧ ∀ index : UInt32,
      ((Node.persisted p).getByIndex (fuel+1) index h = some ((none,none),h) ↔
        t.leafCount ≤ index.toNat ∧ ∀ x ∈ tail, index.toNat+x.2 < 2^32+x.1) := by
  have hinside : ∀ index : UInt32, index.toNat < t.leafCount →
      (Node.persisted p).getByIndex (fuel+1) index h ≠ some ((none,none),h) := by
    intro index hlt
    rw [getByIndex_persisted hn hlt]
    simpa using entryAt_ne (t.length_toList ▸ hlt)
  obtain ⟨u,l,b,hp,rfl⟩ := lays_persisted.mp hn
  have hleaves := hp.leaves
  have hlen := u.length_toList
  rw [LeafTree.leafCount_mapAnn] at hinside ⊢
  cases hleaf : p.isLeaf with
  | true =>
    have hone : u.leafCount = 1 := by
      have hroot := hp.root
      cases u with
      | leaf => rfl
      | branch =>
        rw [hroot] at hleaf
        cases hleaf
    refine ⟨none,by simp [Node.tail,hleaf,hone],fun index => ?_⟩
    have hne : index ≠ 0 ↔ 1 ≤ index.toNat := by
      rw [Nat.one_le_iff_ne_zero,ne_eq,← UInt32.toNat_inj,UInt32.toNat_zero]
    rw [hone]
    by_cases h0 : 1 ≤ index.toNat
    · simp [Node.getByIndex,PersistedNode.getByIndex,hleaf,hne.mpr h0,h0]
    · simp [h0,hinside index (by omega)]
  | false =>
    have hl : (UInt32.ofNat l).toNat = l := by rw [UInt32.toNat_ofNat']; omega
    have hcount : (UInt32.ofNat u.leafCount).toNat = u.leafCount := by
      rw [UInt32.toNat_ofNat']; omega
    refine ⟨some (0,l),by simp [Node.tail,run_bind,hleaf,hp.leafRange,hl,hcount],fun index => ?_⟩
    by_cases hin : index.toNat < u.leafCount
    · simp [hinside index hin,hin]
    simp only [Node.getByIndex,mem_some_iff,forall_eq',not_lt.mp hin,true_and]
    constructor
    · intro hnone
      by_contra hge
      have hwraps : 2^32 ≤ l+index.toNat := by omega
      apply hp.getByIndex_wraps hleaf hwraps
      simpa [lift,map_eq_some_iff] using hnone
    · intro hlt
      rw [hp.getByIndex_eq (by omega),entryAt,getElem?_eq_none (by omega)]
      rfl

/-- An index gives nothing exactly if it is behind the way down to the right, unless a branch of a
snapshot adds it to its first leaf index and leaves the 32 bits. -/
theorem Lays.tail_run (hn : Lays h n t) (ht : t.Balanced) (hfuel : t.height < fuel) :
    ∃ width tail, n.tail fuel h = some ((width,tail),h) ∧
      (t.leafCount ≤ 2^32 → width = t.leafCount) ∧ ∀ index : UInt32,
      (n.getByIndex fuel index h = some ((none,none),h) ↔
        width ≤ index.toNat ∧ ∀ x ∈ tail, index.toNat+x.2 < 2^32+x.1) := by
  induction t generalizing n fuel with
  | leaf k v s =>
    obtain ⟨fuel,rfl⟩ : ∃ f, fuel = f+1 := ⟨fuel-1,by omega⟩
    cases n with
    | persisted p =>
      obtain ⟨tail,htail,hiff⟩ := tail_persisted fuel hn
      exact ⟨_,tail,htail,fun _ => rfl,hiff⟩
    | mem a =>
      obtain ⟨c,hc,h0,-⟩ := hn
      refine ⟨1,none,by simp [Node.tail,run_bind,load_of hc,h0],fun _ => rfl,fun index => ?_⟩
      have hne : index = 0 ↔ ¬1 ≤ index.toNat := by
        rw [Nat.one_le_iff_ne_zero,not_not,← UInt32.toNat_inj,UInt32.toNat_zero]
      by_cases hindex : index = 0
      · simp [Node.getByIndex,run_bind,load_of hc,h0,hindex]
      · simp [Node.getByIndex,run_bind,load_of hc,h0,hindex,not_not.mp (hne.not.mp hindex)]
  | branch height size k s left right ihl ihr =>
    obtain ⟨fuel,rfl⟩ : ∃ f, fuel = f+1 := ⟨fuel-1,by omega⟩
    cases n with
    | persisted p =>
      obtain ⟨tail,htail,hiff⟩ := tail_persisted fuel hn
      exact ⟨_,tail,htail,fun _ => rfl,hiff⟩
    | mem a =>
      obtain ⟨l,r,hn,hl,hr⟩ := hn
      obtain ⟨hbl,hbr,hheight,-⟩ := ht
      have hpos := leafCount_pos right
      rw [LeafTree.height_branch] at hfuel
      rw [LeafTree.leafCount]
      obtain ⟨width,tail,htail,hwidth,hiff⟩ := @ihr r fuel hr hbr (by omega)
      refine ⟨left.leafCount % 2^32+width,
        tail.map fun t => (left.leafCount % 2^32+t.1,t.2),?_,fun hcount => ?_,fun index => ?_⟩
      · obtain ⟨c,hc,rfl,h0,-,-,hcl,hcr,-⟩ := hn
        simp only [Node.tail,run_bind,load_of hc,h0,if_false,hcl,hcr,hl.reads.size_run,hbl.size_eq,
          htail,lift_some,bind_some,run_pure]
      · rw [hwidth (by omega),Nat.mod_eq_of_lt (by omega)]
      · rw [getByIndex_branch hn hl hbl]
        split
        · rename_i hlt
          have hne := hl.getByIndex_ne hbl (show left.height < fuel by omega) hlt
          simp only [hne,false_iff,not_and]
          omega
        · rename_i hge
          rw [hiff,toNat_sub_ofNat (not_lt.mp hge)]
          cases tail with
          | none =>
            simp only [map_none,not_mem_none,false_implies,implies_true,and_true]
            omega
          | some x =>
            simp only [mem_some_iff,forall_eq',map_some]
            omega

end

end Memiavl
