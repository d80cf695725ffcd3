import Memiavl.Snapshot
import Memiavl.Library.PostOrder

/-! Reading a snapshot back gives the tree that was written. The writer leaves the
leaves of a subtree at consecutive leaf indices and its branches at consecutive branch
indices; `Stored` states this layout and the proof follows it down the tree. -/
namespace Memiavl

open Bytes List Option

theorem getLE_putLE_u32 (x : UInt32) : UInt32.ofNat (getLE (putLE 4 x.toNat)) = x := by
  rw [getLE_putLE,show 256^4 = 2^32 by rfl,Nat.mod_eq_of_lt x.toNat_lt,UInt32.ofNat_toNat]

theorem getLE_putLE_u64 (x : UInt64) : UInt64.ofNat (getLE (putLE 8 x.toNat)) = x := by
  rw [getLE_putLE,show 256^8 = 2^64 by rfl,Nat.mod_eq_of_lt x.toNat_lt,UInt64.ofNat_toNat]

/-- A field is found behind the fields before it. -/
theorem field_mid (off len : ℕ) (before field after : Bytes) (hb : before.length = off)
    (hf : field.length = len) : ((before ++ (field ++ after)).drop off).take len = field := by
  subst hb hf
  simp

theorem asDigest_val (d : Digest) : asDigest d.val = some d := by
  simp [asDigest,d.2]

section
variable (version size : UInt32) (height preTrees : UInt8) (keyLeaf : UInt32) (hash : Digest)

open SnapshotWriter

@[simp] theorem length_branchRecord :
    (branchRecord version size height preTrees keyLeaf hash).length = SizeNode := by
  simp [branchRecord,SizeNode,hash.2]

@[simp] theorem height_branchRecord : NodeLayout.height
    (branchRecord version size height preTrees keyLeaf hash) = height := rfl

@[simp] theorem preTrees_branchRecord : NodeLayout.preTrees
    (branchRecord version size height preTrees keyLeaf hash) = preTrees := rfl

@[simp] theorem version_branchRecord : NodeLayout.version
    (branchRecord version size height preTrees keyLeaf hash) = version := by
  have h := field_mid 4 4 [height,preTrees,0,0] (putLE 4 version.toNat)
    (putLE 4 size.toNat ++ (putLE 4 keyLeaf.toNat ++ hash.val)) rfl (by simp)
  simp only [NodeLayout.version,branchRecord,OffsetVersion,append_assoc,h,getLE_putLE_u32]

@[simp] theorem size_branchRecord : NodeLayout.size
    (branchRecord version size height preTrees keyLeaf hash) = size := by
  have h := field_mid 8 4 ([height,preTrees,0,0] ++ putLE 4 version.toNat) (putLE 4 size.toNat)
    (putLE 4 keyLeaf.toNat ++ hash.val) (by simp) (by simp)
  rw [append_assoc] at h
  simp only [NodeLayout.size,branchRecord,OffsetSize,append_assoc,h,getLE_putLE_u32]

@[simp] theorem keyLeaf_branchRecord : NodeLayout.keyLeaf
    (branchRecord version size height preTrees keyLeaf hash) = keyLeaf := by
  have h := field_mid 12 4 ([height,preTrees,0,0] ++ (putLE 4 version.toNat ++ putLE 4 size.toNat))
    (putLE 4 keyLeaf.toNat) hash.val (by simp) (by simp)
  simp only [append_assoc] at h
  simp only [NodeLayout.keyLeaf,branchRecord,OffsetKeyLeaf,append_assoc,h,getLE_putLE_u32]

@[simp] theorem hash_branchRecord : asDigest (NodeLayout.hash
    (branchRecord version size height preTrees keyLeaf hash)) = some hash := by
  have h := field_mid 16 32 ([height,preTrees,0,0] ++ (putLE 4 version.toNat ++
    (putLE 4 size.toNat ++ putLE 4 keyLeaf.toNat))) hash.val [] (by simp) hash.2
  simp only [append_assoc,List.append_nil] at h
  simp only [NodeLayout.hash,branchRecord,OffsetHash,SizeHash,append_assoc,h,asDigest_val]

end

section
variable (version : Version) (key : Bytes) (offset : UInt64) (hash : Digest)

open SnapshotWriter

@[simp] theorem length_leafRecord : (leafRecord version key offset hash).length = SizeLeaf := by
  simp [leafRecord,SizeLeaf,hash.2]

@[simp] theorem version_leafRecord :
    LeafLayout.version (leafRecord version key offset hash) = version := by
  have h := field_mid 0 4 [] (putLE 4 version.toNat)
    (putLE 4 key.length ++ (putLE 8 offset.toNat ++ hash.val)) rfl (by simp)
  rw [nil_append] at h
  simp only [LeafLayout.version,leafRecord,OffsetLeafVersion,append_assoc,h,getLE_putLE_u32]

theorem keyLength_leafRecord (hk : key.length < 2^32) :
    (LeafLayout.keyLength (leafRecord version key offset hash)).toNat = key.length := by
  have h := field_mid 4 4 (putLE 4 version.toNat) (putLE 4 key.length)
    (putLE 8 offset.toNat ++ hash.val) (by simp) (by simp)
  simp only [LeafLayout.keyLength,leafRecord,OffsetLeafKeyLen,append_assoc,h,getLE_putLE]
  rw [UInt32.toNat_ofNat',show 256^4 = 2^32 by rfl,Nat.mod_mod,Nat.mod_eq_of_lt hk]

@[simp] theorem keyOffset_leafRecord :
    LeafLayout.keyOffset (leafRecord version key offset hash) = offset := by
  have h := field_mid 8 8 (putLE 4 version.toNat ++ putLE 4 key.length) (putLE 8 offset.toNat)
    hash.val (by simp) (by simp)
  rw [append_assoc] at h
  simp only [LeafLayout.keyOffset,leafRecord,OffsetLeafKeyOffset,append_assoc,h,
    getLE_putLE_u64]

@[simp] theorem hash_leafRecord :
    asDigest (LeafLayout.hash (leafRecord version key offset hash)) = some hash := by
  have h := field_mid 16 32 (putLE 4 version.toNat ++ (putLE 4 key.length ++ putLE 8 offset.toNat))
    hash.val [] (by simp) hash.2
  simp only [append_assoc,List.append_nil] at h
  simp only [LeafLayout.hash,leafRecord,OffsetLeafHash,append_assoc,h,asDigest_val]

end

theorem leafCount_pos {κ ν α : Type} (t : LeafTree κ ν α) : 0 < t.leafCount := by
  cases t with
  | leaf => exact Nat.one_pos
  | branch h n k a l r => exact Nat.add_pos_left (leafCount_pos l) _

/-- The records of `t` stand in the files of `s` from leaf index `l` and branch index
`b` on, the record of the root behind those of its subtrees. -/
def Stored (s : Snapshot) : Persisted → ℕ → ℕ → Prop
  | .leaf key value i, l, _ =>
    (∃ data, s.leaf (.ofNat l) = some data ∧ LeafLayout.version data = i.version ∧
      asDigest (LeafLayout.hash data) = some i.hash) ∧
    s.leafKey (.ofNat l) = some key ∧ s.leafKeyValue (.ofNat l) = some (key,value)
  | .branch height size _ i left right, l, b =>
    Stored s left l b ∧ Stored s right (l+left.leafCount) (b+left.leafCount-1) ∧
    s.node (.ofNat (b+(left.leafCount+right.leafCount)-2)) =
      some (SnapshotWriter.branchRecord i.version (.ofNat size) (.ofNat height) (.ofNat (l-b))
        (.ofNat (l+left.leafCount)) i.hash)

/-- Position of the root of a stored subtree. -/
def storedRoot (s : Snapshot) : Persisted → ℕ → ℕ → PersistedNode
  | .leaf .., l, _ => ⟨s,true,.ofNat l⟩
  | .branch _ _ _ _ left right, _, b => ⟨s,false,.ofNat (b+(left.leafCount+right.leafCount)-2)⟩

theorem storedRoot_branch (s : Snapshot) (height size : ℕ) (key : Bytes) (i : NodeInfo)
    (left right : Persisted) (l b : ℕ) : storedRoot s (.branch height size key i left right) l b =
      ⟨s,false,.ofNat (b+(left.leafCount+right.leafCount)-2)⟩ := rfl

variable {n l b : ℕ} {t : Persisted}

theorem toUInt32_ofNat (hn : n < 256) : (UInt8.ofNat n).toUInt32 = UInt32.ofNat n := by
  apply UInt32.toNat_inj.mp
  rw [UInt8.toNat_toUInt32,UInt8.toNat_ofNat',UInt32.toNat_ofNat']
  omega

theorem u32_inj {m : ℕ} (hm : m < 2^32) (hn : n < 2^32) :
    UInt32.ofNat m = UInt32.ofNat n ↔ m = n := by
  rw [← UInt32.toNat_inj,UInt32.toNat_ofNat',UInt32.toNat_ofNat',Nat.mod_eq_of_lt hm,
    Nat.mod_eq_of_lt hn]

theorem getStartLeaf_stored (hb : b ≤ l) (hn : 2 ≤ n) :
    getStartLeaf (.ofNat (b+n-2)) (.ofNat n) (.ofNat (l-b)) = .ofNat l := by
  apply UInt32.toNat_inj.mp
  simp only [getStartLeaf,UInt32.toNat_add,UInt32.toNat_sub,UInt32.toNat_ofNat',
    UInt32.reduceToNat]
  omega

theorem getEndLeaf_stored (hb : b ≤ l) (hn : 2 ≤ n) :
    getEndLeaf (.ofNat (b+n-2)) (.ofNat (l-b)) = .ofNat (l+n-1) := by
  apply UInt32.toNat_inj.mp
  simp only [getEndLeaf,UInt32.toNat_add,UInt32.toNat_ofNat',UInt32.reduceToNat]
  omega

theorem getLeftBranch_stored (hb : b ≤ l) (hn : 2 ≤ n) (hl : l+n < 2^32) :
    getLeftBranch (.ofNat (l+n)) (.ofNat (l-b)) = .ofNat (b+n-2) := by
  apply UInt32.toNat_inj.mp
  simp only [getLeftBranch,UInt32.toNat_sub,UInt32.toNat_ofNat',UInt32.reduceToNat]
  omega

section
variable {s : Snapshot} {height size : ℕ} {key : Bytes} {i : NodeInfo} {left right : Persisted}

section
variable (hs : Stored s (.branch height size key i left right) l b)
  (hsize : size = left.leafCount+right.leafCount) (hb : b ≤ l) (hp : l-b < 256) (hl : l+size < 2^32)
include hs hsize hb hp hl

/-- The left child is found one leaf before `keyLeaf`, or as the last branch before
the branches of the right subtree. -/
theorem left_storedRoot :
    (storedRoot s (.branch height size key i left right) l b).left =
      some (storedRoot s left l b) := by
  have hrec := hs.2.2
  have hr := leafCount_pos right
  have hstart := getStartLeaf_stored hb (n := left.leafCount+right.leafCount)
    (by have := leafCount_pos left; omega)
  subst hsize
  simp only [storedRoot,PersistedNode.left,PersistedNode.branchNode,hrec,bind_eq_bind,
    bind_some,preTrees_branchRecord,size_branchRecord,keyLeaf_branchRecord,
    toUInt32_ofNat hp,hstart]
  cases left with
  | leaf k v a => simp [LeafTree.leafCount,UInt32.ofNat_add]
  | branch h n k a ll lr =>
    have hc : 2 ≤ (LeafTree.branch h n k a ll lr).leafCount :=
      Nat.add_le_add (leafCount_pos ll) (leafCount_pos lr)
    have hone : UInt32.ofNat l + 1 = UInt32.ofNat (l+1) := by rw [UInt32.ofNat_add]; rfl
    rw [hone,if_neg (by rw [u32_inj (by omega) (by omega)]; omega),
      getLeftBranch_stored hb hc (by omega)]
    rfl

theorem right_storedRoot :
    (storedRoot s (.branch height size key i left right) l b).right =
      some (storedRoot s right (l+left.leafCount) (b+left.leafCount-1)) := by
  have hrec := hs.2.2
  have hpos := leafCount_pos left
  have hend := getEndLeaf_stored hb (n := left.leafCount+right.leafCount)
    (by have := leafCount_pos right; omega)
  subst hsize
  simp only [storedRoot,PersistedNode.right,PersistedNode.branchNode,hrec,bind_eq_bind,
    bind_some,preTrees_branchRecord,keyLeaf_branchRecord,toUInt32_ofNat hp,hend]
  cases right with
  | leaf k v a =>
    have hc : (LeafTree.leaf k v a).leafCount = 1 := rfl
    rw [if_pos (by rw [u32_inj (by omega) (by omega)]; omega)]
  | branch h n k a rl rr =>
    have hc : 2 ≤ (LeafTree.branch h n k a rl rr).leafCount :=
      Nat.add_le_add (leafCount_pos rl) (leafCount_pos rr)
    rw [if_neg (by rw [u32_inj (by omega) (by omega)]; omega)]
    simp only [some.injEq,PersistedNode.mk.injEq,true_and]
    change _ = UInt32.ofNat (b+left.leafCount-1+(LeafTree.branch h n k a rl rr).leafCount-2)
    apply UInt32.toNat_inj.mp
    simp only [UInt32.toNat_sub,UInt32.toNat_ofNat',UInt32.reduceToNat]
    omega

end

end

theorem Stored.leafKey_minKey {s : Snapshot} (hs : Stored s t l b) :
    s.leafKey (.ofNat l) = some t.minKey := by
  induction t generalizing l b with
  | leaf k v i => exact hs.2.1
  | branch h n k i left right ihl ihr => exact ihl hs.1

/-- Walking down from the root of a stored subtree finds the subtree, if the way down is not too
long. The number of waiting subtrees `l-b` grows by one to the right, so that a walk of no more
steps than the field for it can count never meets one that was cut. -/
theorem walk_storedRoot_eq {s : Snapshot} {t : Persisted} {l b fuel : ℕ} (ht : t.Exact)
    (hheights : t.Every fun u => u.height < 256) (hs : Stored s t l b) (hb : b ≤ l)
    (hl : l+t.leafCount < 2^32) (hp : l-b+min fuel t.waiting ≤ 256) :
    (storedRoot s t l b).walk fuel = if t.depth < fuel then some t else none := by
  induction t generalizing l b fuel with
  | leaf key value i =>
    obtain ⟨⟨data,hdata,hversion,hhash⟩,hkey,hkv⟩ := hs
    obtain _ | fuel := fuel
    · rfl
    rw [LeafTree.depth,if_pos (Nat.succ_pos fuel)]
    simp only [storedRoot,PersistedNode.walk,PersistedNode.version,PersistedNode.hash,
      PersistedNode.key,PersistedNode.value,PersistedNode.leafNode,hdata,hversion,hhash,hkey,hkv,
      map_some,bind_some,if_true,bind_eq_bind]
  | branch height size key i left right ihl ihr =>
    obtain _ | fuel := fuel
    · rfl
    obtain ⟨hel,her,hsum,hkey⟩ := ht
    obtain ⟨hheight,hhl,hhr⟩ := hheights
    have hsize : size = left.leafCount+right.leafCount := by
      rw [hsum,hel.size_eq,her.size_eq]
    have hcount : (LeafTree.branch height size key i left right).leafCount =
        left.leafCount+right.leafCount := rfl
    have hcl := leafCount_pos left
    simp only [LeafTree.height_branch] at hheight
    simp only [LeafTree.waiting] at hp
    have hleft := left_storedRoot hs hsize hb (by omega) (by omega)
    have hright := right_storedRoot hs hsize hb (by omega) (by omega)
    have hl' := @ihl _ _ fuel hel hhl hs.1 hb (by omega) (by omega)
    have hr' := @ihr _ _ fuel her hhr hs.2.1 (by omega) (by omega) (by omega)
    have hmin := hs.2.1.leafKey_minKey
    have hrec := hs.2.2
    have hh : (UInt8.ofNat height).toNat = height := by
      rw [UInt8.toNat_ofNat']; omega
    have hn : (UInt32.ofNat size).toNat = size := by
      rw [UInt32.toNat_ofNat']; omega
    rw [storedRoot_branch] at hleft hright
    simp only [storedRoot_branch,PersistedNode.walk,PersistedNode.version,PersistedNode.hash,
      PersistedNode.key,PersistedNode.height,PersistedNode.size,PersistedNode.branchNode,hrec,
      map_some,bind_some,bind_eq_bind,if_false,Bool.false_eq_true,
      version_branchRecord,hash_branchRecord,keyLeaf_branchRecord,height_branchRecord,
      size_branchRecord,hmin,hleft,hright,hl',hr',hh,hn,← hkey]
    have hdepth : (LeafTree.branch height size key i left right).depth < fuel+1 ↔
        left.depth < fuel ∧ right.depth < fuel := by
      rw [LeafTree.depth]
      omega
    by_cases hdl : left.depth < fuel
    · by_cases hdr : right.depth < fuel
      · rw [if_pos hdl,if_pos hdr,if_pos (hdepth.mpr ⟨hdl,hdr⟩)]
        rfl
      · rw [if_pos hdl,if_neg hdr,if_neg fun h => hdr (hdepth.mp h).2]
        rfl
    · rw [if_neg hdl,if_neg fun h => hdl (hdepth.mp h).1]
      rfl

def kvsLength : Persisted → ℕ
  | .leaf key value _ => key.length+value.length+8
  | .branch _ _ _ _ left right => kvsLength left+kvsLength right

/-- The four-byte length fields can hold the lengths of all keys and values. -/
def ShortEntries (t : Persisted) : Prop := ∀ e ∈ t.toList, e.1.length < 2^32 ∧ e.2.length < 2^32

instance (t : Persisted) : Decidable (ShortEntries t) :=
  inferInstanceAs (Decidable (∀ e ∈ t.toList, e.1.length < 2^32 ∧ e.2.length < 2^32))

namespace SnapshotWriter

/-- The writer has written `l` leaves and `b` branches. -/
structure At (w : SnapshotWriter) (l b : ℕ) : Prop where
  leaves : w.leaves.length = l*SizeLeaf
  nodes : w.nodes.length = b*SizeNode
  leafCounter : w.leafCounter = .ofNat l
  branchCounter : w.branchCounter = .ofNat b
  kvsOffset : w.kvsOffset = .ofNat w.kvs.length

/-- The files of the snapshot start with what was written. -/
structure WrittenIn (w : SnapshotWriter) (s : Snapshot) : Prop where
  nodes : w.nodes <+: s.nodes
  leaves : w.leaves <+: s.leaves
  kvs : w.kvs <+: s.kvs

variable {w : SnapshotWriter}

theorem At.writeLeaf (h : w.At l b) (version : Version) (key value : Bytes) (hash : Digest) :
    (w.writeLeaf version key value hash).At (l+1) b where
  leaves := by simp [SnapshotWriter.writeLeaf,writeKeyValue,h.leaves]; ring
  nodes := h.nodes
  leafCounter := by simp [SnapshotWriter.writeLeaf,writeKeyValue,h.leafCounter,UInt32.ofNat_add]
  branchCounter := h.branchCounter
  kvsOffset := by
    simp only [SnapshotWriter.writeLeaf,writeKeyValue,h.kvsOffset,length_append,length_putLE,
      UInt64.ofNat_add,UInt64.reduceOfNat]
    grind

theorem At.writeBranch (h : w.At l b) (version size : UInt32) (height preTrees : UInt8)
    (keyLeaf : UInt32) (hash : Digest) :
    (w.writeBranch version size height preTrees keyLeaf hash).At l (b+1) where
  leaves := h.leaves
  nodes := by simp [SnapshotWriter.writeBranch,h.nodes]; ring
  leafCounter := h.leafCounter
  branchCounter := by simp [SnapshotWriter.writeBranch,h.branchCounter,UInt32.ofNat_add]
  kvsOffset := h.kvsOffset

section
variable {s : Snapshot} {version : Version} {key value : Bytes} {hash : Digest}

theorem leaf_written (h : w.At l b) (hl : l < 2^32)
    (hs : (w.writeLeaf version key value hash).WrittenIn s) :
    s.leaf (.ofNat l) = some (leafRecord version key w.kvsOffset hash) := by
  obtain ⟨rest,hrest⟩ := hs.leaves
  apply slice_mid' w.leaves _ rest hrest.symm
  · rw [UInt32.toNat_ofNat',Nat.mod_eq_of_lt hl]
    exact h.leaves.symm
  · exact (length_leafRecord ..).symm

/-- The entry of a written leaf, cut at the places where it is read. -/
theorem kvs_written (hs : (w.writeLeaf version key value hash).WrittenIn s) : ∃ rest,
    s.kvs = w.kvs ++ putLE 4 key.length ++ key ++ (putLE 4 value.length ++ value ++ rest) := by
  obtain ⟨rest,hrest⟩ := hs.kvs
  exact ⟨rest,by simp [← hrest,SnapshotWriter.writeLeaf,writeKeyValue]⟩

theorem leafKey_written (h : w.At l b) (hl : l < 2^32) (hk : key.length < 2^32)
    (hkvs : w.kvs.length+4 < 2^64) (hs : (w.writeLeaf version key value hash).WrittenIn s) :
    s.leafKey (.ofNat l) = some key := by
  obtain ⟨rest,hrest⟩ := kvs_written hs
  simp only [Snapshot.leafKey,leaf_written h hl hs,keyOffset_leafRecord,h.kvsOffset,
    keyLength_leafRecord _ _ _ _ hk,bind_eq_bind,bind_some]
  apply slice_mid' _ _ _ hrest _ rfl
  simp only [UInt64.toNat_add,UInt64.toNat_ofNat',UInt64.reduceToNat,length_append,
    length_putLE]
  omega

/-- The length of the value is read from its four-byte field. -/
theorem leafKeyValue_written (h : w.At l b) (hl : l < 2^32) (hk : key.length < 2^32)
    (hkvs : w.kvs.length+(key.length+value.length+8) < 2^64)
    (hs : (w.writeLeaf version key value hash).WrittenIn s) :
    s.leafKeyValue (.ofNat l) = some (key,value.take (value.length % 2^32)) := by
  obtain ⟨rest,hrest⟩ := kvs_written hs
  have hlen : (LeafLayout.keyLength (leafRecord version key (.ofNat w.kvs.length) hash)).toUInt64 =
      UInt64.ofNat key.length := by
    apply UInt64.toNat_inj.mp
    rw [UInt32.toNat_toUInt64,keyLength_leafRecord _ _ _ _ hk,UInt64.toNat_ofNat']
    omega
  have hkey : slice s.kvs (UInt64.ofNat w.kvs.length+4).toNat (UInt64.ofNat key.length).toNat =
      some key := by
    apply slice_mid' _ _ _ hrest <;>
      simp only [UInt64.toNat_add,UInt64.toNat_ofNat',UInt64.reduceToNat,length_append,
        length_putLE] <;> omega
  have hfield : slice s.kvs (UInt64.ofNat w.kvs.length+4+UInt64.ofNat key.length).toNat 4 =
      some (putLE 4 value.length) := by
    apply slice_mid' (w.kvs ++ putLE 4 key.length ++ key) _ (value ++ rest)
    · simp [hrest]
    · simp only [UInt64.toNat_add,UInt64.toNat_ofNat',UInt64.reduceToNat,length_append,
        length_putLE]
      omega
    · simp
  have hvalue : slice s.kvs (UInt64.ofNat w.kvs.length+4+UInt64.ofNat key.length+4).toNat
      (getLE (putLE 4 value.length)) = some (value.take (value.length % 2^32)) := by
    have hmod := Nat.mod_le value.length (2^32)
    apply slice_mid' (w.kvs ++ putLE 4 key.length ++ key ++ putLE 4 value.length) _
      (value.drop (value.length % 2^32) ++ rest)
    · simp only [hrest,append_assoc]
      rw [← append_assoc (value.take _),take_append_drop]
    · simp only [UInt64.toNat_add,UInt64.toNat_ofNat',UInt64.reduceToNat,length_append,
        length_putLE]
      omega
    · rw [getLE_putLE,show 256^4 = 2^32 by rfl,length_take,Nat.min_eq_left hmod]
  simp only [Snapshot.leafKeyValue,leaf_written h hl hs,keyOffset_leafRecord,h.kvsOffset,hlen,hkey,
    hfield,hvalue,bind_eq_bind,bind_some]

end

theorem node_written {s : Snapshot} (h : w.At l b) (hb : b < 2^32) {version size : UInt32}
    {height preTrees : UInt8} {keyLeaf : UInt32} {hash : Digest}
    (hs : (w.writeBranch version size height preTrees keyLeaf hash).WrittenIn s) :
    s.node (.ofNat b) = some (branchRecord version size height preTrees keyLeaf hash) := by
  obtain ⟨rest,hrest⟩ := hs.nodes
  apply slice_mid' w.nodes _ rest hrest.symm
  · rw [UInt32.toNat_ofNat',Nat.mod_eq_of_lt hb]
    exact h.nodes.symm
  · exact (length_branchRecord ..).symm

theorem preTrees_counters (hb : b ≤ l) :
    (UInt32.ofNat l - UInt32.ofNat b).toUInt8 = UInt8.ofNat (l-b) := by
  apply UInt8.toNat_inj.mp
  simp only [UInt32.toNat_toUInt8,UInt32.toNat_sub,UInt32.toNat_ofNat',UInt8.toNat_ofNat']
  omega

theorem At.writeRecursive (h : w.At l b) (t : Persisted) :
    (w.writeRecursive t).At (l+t.leafCount) (b+t.leafCount-1) := by
  induction t generalizing w l b with
  | leaf key value i => exact h.writeLeaf i.version key value i.hash
  | branch height size key i left right ihl ihr =>
    have hcl := leafCount_pos left
    have hcr := leafCount_pos right
    have hb : b+(left.leafCount+right.leafCount)-1 =
      b+left.leafCount-1+right.leafCount-1+1 := by omega
    simp only [LeafTree.leafCount,← add_assoc l]
    rw [hb]
    exact (ihr (ihl h)).writeBranch ..

theorem length_kvs_writeRecursive (w : SnapshotWriter) (t : Persisted) :
    (w.writeRecursive t).kvs.length = w.kvs.length+kvsLength t := by
  induction t generalizing w with
  | leaf key value i =>
    simp only [SnapshotWriter.writeRecursive,SnapshotWriter.writeLeaf,writeKeyValue,kvsLength,
      length_append,length_putLE]
    omega
  | branch height size key i left right ihl ihr =>
    simp only [SnapshotWriter.writeRecursive,SnapshotWriter.writeBranch,kvsLength,ihl,ihr]
    omega

/-- Every snapshot whose files extend what `writeRecursive` has written has the subtree
stored from the position of the writer on. -/
theorem writeRecursive_stored {t : Persisted} {s : Snapshot} (h : w.At l b) (hb : b ≤ l)
    (hl : l+t.leafCount < 2^32) (ht : ShortEntries t) (hkvs : w.kvs.length+kvsLength t < 2^64)
    (hs : (w.writeRecursive t).WrittenIn s) : w.WrittenIn s ∧ Stored s t l b := by
  induction t generalizing w l b with
  | leaf key value i =>
    obtain ⟨hk,hv⟩ := ht (key,value) (by simp [LeafTree.toList])
    simp only [LeafTree.leafCount,kvsLength] at hl hkvs
    have hkv := leafKeyValue_written h (by omega) hk hkvs hs
    rw [Nat.mod_eq_of_lt hv,take_length] at hkv
    exact ⟨⟨hs.nodes,(prefix_append ..).trans hs.leaves,(prefix_append ..).trans hs.kvs⟩,
      ⟨_,leaf_written h (by omega) hs,version_leafRecord ..,hash_leafRecord ..⟩,
      leafKey_written h (by omega) hk (by omega) hs,hkv⟩
  | branch height size key i left right ihl ihr =>
    have hcl := leafCount_pos left
    have hcr := leafCount_pos right
    simp only [LeafTree.leafCount,kvsLength] at hl hkvs
    have h₁ := h.writeRecursive left
    have h₂ := h₁.writeRecursive right
    have hlen := length_kvs_writeRecursive w left
    -- The branch record is the last one; what stands before it holds both subtrees.
    have hw₂ : ((w.writeRecursive left).writeRecursive right).WrittenIn s :=
      ⟨(prefix_append ..).trans hs.nodes,hs.leaves,hs.kvs⟩
    obtain ⟨hw₁,hright⟩ := ihr h₁ (by omega) (by omega)
      (fun e he => ht e (by simp [LeafTree.toList,he])) (by omega) hw₂
    obtain ⟨hw,hleft⟩ := ihl h hb (by omega)
      (fun e he => ht e (by simp [LeafTree.toList,he])) (by omega) hw₁
    have hnode := node_written h₂ (by omega) hs
    rw [h.leafCounter,h.branchCounter,preTrees_counters hb,h₁.leafCounter,
      show b+left.leafCount-1+right.leafCount-1 = b+(left.leafCount+right.leafCount)-2 by omega]
      at hnode
    exact ⟨hw,hleft,hright,hnode⟩

end SnapshotWriter

theorem SnapshotWriter.at_start : ({} : SnapshotWriter).At 0 0 := ⟨rfl,rfl,rfl,rfl,rfl⟩

theorem getLE_metadata (version : Version) :
    getLE ((metadataBytes version).take 4) = SnapshotFileMagic ∧
    getLE (((metadataBytes version).drop 4).take 4) = SnapshotFormat ∧
    UInt32.ofNat (getLE (((metadataBytes version).drop 8).take 4)) = version := by
  have hmagic := field_mid 0 4 [] (putLE 4 SnapshotFileMagic)
    (putLE 4 SnapshotFormat ++ putLE 4 version.toNat) rfl (by simp)
  have hformat := field_mid 4 4 (putLE 4 SnapshotFileMagic) (putLE 4 SnapshotFormat)
    (putLE 4 version.toNat) (by simp) (by simp)
  have hversion := field_mid 8 4 (putLE 4 SnapshotFileMagic ++ putLE 4 SnapshotFormat)
    (putLE 4 version.toNat) [] (by simp) (by simp)
  rw [nil_append,drop_zero] at hmagic
  rw [List.append_nil,append_assoc] at hversion
  rw [metadataBytes,append_assoc,hmagic,hformat,hversion,getLE_putLE,getLE_putLE,
    getLE_putLE_u32]
  exact ⟨rfl,rfl,rfl⟩

/-- The files of a writer that has finished a tree of `n` leaves pass all checks of
`OpenSnapshot`. -/
theorem openSnapshot_files {w : SnapshotWriter} (h : w.At n (n-1)) (hn : 0 < n) (version : Version) :
    openSnapshot ⟨metadataBytes version,w.nodes,w.leaves,w.kvs⟩ =
      .ok ⟨w.nodes,w.leaves,w.kvs,version,
        some (if n = 1 then (true,0) else (false,.ofNat (n-2)))⟩ := by
  obtain ⟨hmagic,hformat,hversion⟩ := getLE_metadata version
  have hlen : (metadataBytes version).length = SizeMetadata := by simp [metadataBytes,SizeMetadata]
  have hnodes : w.nodes.length / SizeNode = n-1 := by
    rw [h.nodes]
    exact Nat.mul_div_cancel _ (by decide)
  have hleaves : w.leaves.length / SizeLeaf = n := by
    rw [h.leaves]
    exact Nat.mul_div_cancel _ (by decide)
  have hnodes' : w.nodes.length % SizeNode = 0 := by rw [h.nodes]; exact Nat.mul_mod_left ..
  have hleaves' : w.leaves.length % SizeLeaf = 0 := by rw [h.leaves]; exact Nat.mul_mod_left ..
  simp only [openSnapshot,hlen,hmagic,hformat,hversion,hnodes,hleaves,hnodes',hleaves',ne_eq,
    not_true_eq_false,if_false]
  rw [if_neg (by omega)]
  by_cases h1 : n = 1
  · subst h1
    simp
  · rw [if_pos (by omega),if_neg h1,show n-1-1 = n-2 by omega]

/-- The snapshot that `OpenSnapshot` makes of the files of a tree. -/
def snapshotOf (version : Version) (t : Persisted) : Snapshot :=
  let w := SnapshotWriter.writeRecursive {} t
  ⟨w.nodes,w.leaves,w.kvs,version,
    some (if t.leafCount = 1 then (true,0) else (false,.ofNat (t.leafCount-2)))⟩

theorem rootNode_snapshotOf (version : Version) (t : Persisted) :
    (snapshotOf version t).rootNode = some (storedRoot (snapshotOf version t) t 0 0) := by
  cases t with
  | leaf k v i => rfl
  | branch h n k i left right =>
    have hl := leafCount_pos left
    have hr := leafCount_pos right
    have hne : ¬ (LeafTree.branch h n k i left right).leafCount = 1 := by
      simp only [LeafTree.leafCount]
      omega
    simp only [Snapshot.rootNode,storedRoot_branch,Nat.zero_add]
    rw [snapshotOf,map_some,if_neg hne]
    rfl

theorem writtenIn_snapshotOf (version : Version) (t : Persisted) :
    (SnapshotWriter.writeRecursive {} t).WrittenIn (snapshotOf version t) :=
  ⟨prefix_rfl,prefix_rfl,prefix_rfl⟩

theorem openSnapshot_writeSnapshot (hn : t.leafCount < 2^32) (version : Version) :
    openSnapshot (writeSnapshot version (some t)) = .ok (snapshotOf version t) := by
  have hat := SnapshotWriter.at_start.writeRecursive t
  have hpos := leafCount_pos t
  simp only [Nat.zero_add] at hat
  have hcounter : (SnapshotWriter.writeRecursive {} t).leafCounter > 0 := by
    rw [hat.leafCounter,gt_iff_lt,UInt32.lt_iff_toNat_lt,UInt32.toNat_ofNat',Nat.mod_eq_of_lt hn]
    exact hpos
  rw [writeSnapshot,if_pos hcounter]
  exact openSnapshot_files hat hpos version

theorem openSnapshot_empty (version : Version) :
    openSnapshot (writeSnapshot version none) = .ok ⟨[],[],[],version,none⟩ := by
  obtain ⟨hmagic,hformat,hversion⟩ := getLE_metadata version
  have hlen : (metadataBytes version).length = SizeMetadata := by simp [metadataBytes,SizeMetadata]
  simp [writeSnapshot,openSnapshot,hlen,hmagic,hformat,hversion]

/-- A walk from the root of a written snapshot finds every node again, if no way down is too
long. -/
theorem tree_snapshotOf_eq (version : Version) (ht : t.Exact)
    (hheights : t.Every fun u => u.height < 256) (hcount : t.leafCount < 2^32)
    (hshort : ShortEntries t) (hkvs : kvsLength t < 2^64) :
    (snapshotOf version t).tree = if t.depth < 256 then some (some t) else none := by
  obtain ⟨-,hstored⟩ := SnapshotWriter.writeRecursive_stored SnapshotWriter.at_start le_rfl
    (by simpa using hcount) hshort (by simpa using hkvs) (writtenIn_snapshotOf version t)
  have hwalk := @walk_storedRoot_eq _ _ _ _ 256 ht hheights hstored le_rfl (by simpa using hcount)
    (by omega)
  simp only [Snapshot.tree,rootNode_snapshotOf,hwalk]
  split <;> rfl

theorem tree_snapshotOf (version : Version) (ht : t.Avl) (hcount : t.leafCount < 2^32)
    (hshort : ShortEntries t) (hkvs : kvsLength t < 2^64) :
    (snapshotOf version t).tree = some (some t) := by
  have hheight : t.height < 256 := heightFits ht.balanced (hcount.trans (by norm_num))
  have hm := ht.balanced.measured
  have hdepth := hm.depth_eq
  rw [tree_snapshotOf_eq version ht.exact (hm.every_height_le.mono fun u hu => by omega) hcount
    hshort hkvs,if_pos (by omega)]

/-- Writing a tree and reading it back: `OpenSnapshot` accepts the files, and a walk from the
root finds every node again. An empty tree gives a snapshot without nodes. -/
theorem snapshot_round_trip (version : Version) (root : Option Persisted)
    (havl : ∀ t ∈ root, t.Avl) (hcount : ∀ t ∈ root, t.leafCount < 2^32)
    (hshort : ∀ t ∈ root, ShortEntries t) (hkvs : ∀ t ∈ root, kvsLength t < 2^64) :
    ∃ s, openSnapshot (writeSnapshot version root) = .ok s ∧ s.version = version ∧
      s.tree = some root := by
  cases root with
  | none => exact ⟨_,openSnapshot_empty version,rfl,rfl⟩
  | some t =>
    exact ⟨_,openSnapshot_writeSnapshot (hcount t rfl) version,rfl,
      tree_snapshotOf version (havl t rfl) (hcount t rfl) (hshort t rfl) (hkvs t rfl)⟩

theorem snapshot_round_trip_two_leaves :
    let i : NodeInfo := ⟨1,emptyHash⟩
    let t : Persisted := .branch 1 2 [7] i (.leaf [3] [] i) (.leaf [7] [1,2] i)
    ∃ s, openSnapshot (writeSnapshot 1 (some t)) = .ok s ∧ s.version = 1 ∧
      s.tree = some (some t) := by
  intro i t
  apply snapshot_round_trip 1 (some t) <;> simp only [mem_some_iff,forall_eq'] <;> decide

/-- A single leaf comes back with the value cut to the length in its four-byte field. -/
theorem tree_single_leaf {key value : Bytes} {i : NodeInfo} (version : Version)
    (hk : key.length < 2^32) (hkvs : key.length+value.length+8 < 2^64) :
    (snapshotOf version (.leaf key value i)).tree =
      some (some (.leaf key (value.take (value.length % 2^32)) i)) := by
  have hs := writtenIn_snapshotOf version (.leaf key value i)
  have hlen : ({} : SnapshotWriter).kvs.length = 0 := rfl
  have hstored : Stored (snapshotOf version (.leaf key value i))
      (.leaf key (value.take (value.length % 2^32)) i) 0 0 :=
    ⟨⟨_,SnapshotWriter.leaf_written SnapshotWriter.at_start (by norm_num) hs,
        version_leafRecord ..,hash_leafRecord ..⟩,
      SnapshotWriter.leafKey_written SnapshotWriter.at_start (by norm_num) hk (by omega) hs,
      SnapshotWriter.leafKeyValue_written SnapshotWriter.at_start (by norm_num) hk (by omega) hs⟩
  have hwalk := @walk_storedRoot_eq _ _ _ _ 256 (by trivial) (by simp [LeafTree.Every]) hstored le_rfl
    (by simp [LeafTree.leafCount]) (by simp [LeafTree.waiting])
  simp only [Snapshot.tree,rootNode_snapshotOf]
  exact congrArg (Option.map some) hwalk

/-- A value of `2^32` bytes comes back empty: its length does not fit the four-byte field. -/
theorem tree_long_value {value : Bytes} (hv : value.length = 2^32) (i : NodeInfo)
    (version : Version) : (snapshotOf version (.leaf [] value i)).tree = some (some (.leaf [] [] i)) := by
  have h := @tree_single_leaf [] value i version (by simp) (by rw [hv]; simp)
  rwa [hv,Nat.mod_self,take_zero] at h

theorem snapshot_truncates_long_value :
    let t : Persisted := .leaf [] (List.replicate (2^32) 0) ⟨1,emptyHash⟩
    t.Avl ∧ t.leafCount < 2^32 ∧ ∃ s, openSnapshot (writeSnapshot 1 (some t)) = .ok s ∧
      s.tree = some (some (.leaf [] [] ⟨1,emptyHash⟩)) ∧ s.tree ≠ some (some t) := by
  have hv : (List.replicate (2^32) (0 : UInt8)).length = 2^32 := length_replicate
  generalize List.replicate (2^32) (0 : UInt8) = value at hv
  intro t
  have hcount : t.leafCount < 2^32 := by simp [t,LeafTree.leafCount]
  have htree := tree_long_value hv ⟨1,emptyHash⟩ 1
  refine ⟨⟨LeafTree.search_leaf ..,LeafTree.balanced_leaf ..⟩,hcount,_,
    openSnapshot_writeSnapshot hcount 1,htree,?_⟩
  rw [htree]
  intro h
  simp only [t,some.injEq,LeafTree.leaf.injEq,true_and,and_true] at h
  simp [← h] at hv

end Memiavl
