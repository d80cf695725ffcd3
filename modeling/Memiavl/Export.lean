import Memiavl.ImportTree

/-! Exporting trees for state sync: the scan of a tree in post-order, the export of a snapshot from
its files, and the exporter of all trees with the stream of items that is made of it. Both ways
list the nodes of a tree in post-order. -/
namespace Memiavl

open Bytes List Option

/-- A node as the callback of an export gets it; a branch has no value. -/
def Contents.exportNode : Contents → ExportNode
  | .leaf key value version => ⟨key,value,version.toNat,0⟩
  | .branch height _ key version _ _ => ⟨key,[],version.toNat,toInt8 height⟩

/-- `ScanPostOrder`, by the entries on the stack with their `expanded` flags. -/
def scanPostOrder : ℕ → List (Contents × Bool) → List ExportNode
  | 0,_ => []
  | _+1,[] => []
  | fuel+1,(.leaf key value version,_)::stack =>
    Contents.exportNode (.leaf key value version)::scanPostOrder fuel stack
  | fuel+1,(.branch height size key version left right,expanded)::stack =>
    let node : Contents := .branch height size key version left right
    if expanded then Contents.exportNode node::scanPostOrder fuel stack
    else scanPostOrder fuel ((left,false)::(right,false)::(node,true)::stack)

namespace Snapshot

def nodesLen (s : Snapshot) : ℕ := s.nodes.length / SizeNode

def leavesLen (s : Snapshot) : ℕ := s.leaves.length / SizeLeaf

/-- `KeyValue`, which takes the length of the key from the file of the entries. -/
def keyValue (s : Snapshot) (offset : UInt64) : Option (Bytes × Bytes) := do
  let length ← slice s.kvs offset.toNat 4
  let offset := offset + 4
  let key ← slice s.kvs offset.toNat (getLE length)
  let offset := offset + .ofNat (getLE length)
  let length ← slice s.kvs offset.toNat 4
  let offset := offset + 4
  let value ← slice s.kvs offset.toNat (getLE length)
  some (key,value)

def exportLeaf (s : Snapshot) (j : UInt32) : Option ExportNode := do
  let leaf ← s.leaf j
  let (key,value) ← s.keyValue (LeafLayout.keyOffset leaf)
  some ⟨key,value,(LeafLayout.version leaf).toNat,0⟩

/-- The inner loop: the given number of leaves, from index `j` on. -/
def exportLeaves (s : Snapshot) : ℕ → UInt32 → Option (List ExportNode × UInt32)
  | 0,j => some ([],j)
  | n+1,j => do
    let leaf ← s.exportLeaf j
    let (leaves,j) ← s.exportLeaves n (j+1)
    some (leaf::leaves,j)

/-- The loop over the branch nodes, of which the given number is left. Leaves are added until
there are two more subtrees than those before the branch. -/
def exportLoop (s : Snapshot) : ℕ → UInt32 → UInt32 → ℕ → Option (List ExportNode)
  | 0,_,_,_ => some []
  | n+1,i,j,pendingTrees => do
    let node ← s.node i
    let missing := (NodeLayout.preTrees node).toNat + 2 - pendingTrees
    let (leaves,j) ← s.exportLeaves missing j
    let key ← s.leafKey (NodeLayout.keyLeaf node)
    let rest ← s.exportLoop n (i+1) j (pendingTrees+missing-1)
    some (leaves ++
      ⟨key,[],(NodeLayout.version node).toNat,toInt8 (NodeLayout.height node).toNat⟩::rest)

/-- `export`; a read outside the files panics. -/
def exportNodes (s : Snapshot) : Option (List ExportNode) :=
  if s.leavesLen = 0 then some []
  else if s.leavesLen = 1 then do
    let leaf : PersistedNode := ⟨s,true,0⟩
    let version ← leaf.version
    let key ← leaf.key
    let value ← leaf.value
    some [⟨key,value,version.toNat,0⟩]
  else s.exportLoop s.nodesLen 0 0 0

end Snapshot

def Contents.exported : Contents → List ExportNode
  | .leaf key value version => [Contents.exportNode (.leaf key value version)]
  | .branch height size key version left right =>
    Contents.exported left ++ Contents.exported right ++
      [Contents.exportNode (.branch height size key version left right)]

/-- The turns of the loop for a tree: a branch is met twice. -/
def Contents.scanTurns : Contents → ℕ
  | .leaf .. => 1
  | .branch _ _ _ _ left right => Contents.scanTurns left+Contents.scanTurns right+2

theorem scanPostOrder_tree (t : Contents) (fuel : ℕ) (stack : List (Contents × Bool)) :
    scanPostOrder (Contents.scanTurns t+fuel) ((t,false)::stack) =
      Contents.exported t ++ scanPostOrder fuel stack := by
  induction t generalizing fuel stack with
  | leaf key value version =>
    rw [Contents.scanTurns,Nat.add_comm 1 fuel]
    rfl
  | branch height size key version left right ihl ihr =>
    have hturns : Contents.scanTurns (.branch height size key version left right)+fuel =
        Contents.scanTurns left+(Contents.scanTurns right+(fuel+1))+1 := by
      simp only [Contents.scanTurns]
      omega
    rw [hturns,scanPostOrder]
    simp only [Bool.false_eq_true,if_false]
    rw [ihl,ihr,scanPostOrder]
    simp [Contents.exported]

namespace SnapshotWriter

theorem keyValue_written {w : SnapshotWriter} {s : Snapshot} {version : Version}
    {key value : Bytes} {hash : Digest} (hk : key.length < 2^32) (hv : value.length < 2^32)
    (hkvs : w.kvs.length+(key.length+value.length+8) < 2^64)
    (hs : (w.writeLeaf version key value hash).WrittenIn s) :
    s.keyValue (.ofNat w.kvs.length) = some (key,value) := by
  obtain ⟨rest,hrest⟩ := kvs_written hs
  have hkl : getLE (putLE 4 key.length) = key.length := by
    rw [getLE_putLE,show 256^4 = 2^32 by rfl,Nat.mod_eq_of_lt hk]
  have hvl : getLE (putLE 4 value.length) = value.length := by
    rw [getLE_putLE,show 256^4 = 2^32 by rfl,Nat.mod_eq_of_lt hv]
  have hkeyLen : slice s.kvs (UInt64.ofNat w.kvs.length).toNat 4 = some (putLE 4 key.length) := by
    apply slice_mid' w.kvs _ (key ++ (putLE 4 value.length ++ value ++ rest))
    · simp [hrest]
    · rw [UInt64.toNat_ofNat']
      omega
    · simp
  have hkey : slice s.kvs (UInt64.ofNat w.kvs.length+4).toNat key.length = some key := by
    apply slice_mid' _ _ _ hrest
    · simp only [UInt64.toNat_add,UInt64.toNat_ofNat',UInt64.reduceToNat,length_append,
        length_putLE]
      omega
    · rfl
  have hvalueLen : slice s.kvs (UInt64.ofNat w.kvs.length+4+.ofNat key.length).toNat 4 =
      some (putLE 4 value.length) := by
    apply slice_mid' (w.kvs ++ putLE 4 key.length ++ key) _ (value ++ rest)
    · simp [hrest]
    · simp only [UInt64.toNat_add,UInt64.toNat_ofNat',UInt64.reduceToNat,length_append,
        length_putLE]
      omega
    · simp
  have hvalue : slice s.kvs (UInt64.ofNat w.kvs.length+4+.ofNat key.length+4).toNat value.length =
      some value := by
    apply slice_mid' (w.kvs ++ putLE 4 key.length ++ key ++ putLE 4 value.length) _ rest
    · simp [hrest]
    · simp only [UInt64.toNat_add,UInt64.toNat_ofNat',UInt64.reduceToNat,length_append,
        length_putLE]
      omega
    · rfl
  simp only [Snapshot.keyValue,hkeyLen,hkl,hkey,hvalueLen,hvl,hvalue,bind_eq_bind,
    bind_some]

theorem exportLeaf_written {w : SnapshotWriter} {l b : ℕ} {s : Snapshot} {version : Version}
    {key value : Bytes} {hash : Digest} (h : w.At l b) (hl : l < 2^32) (hk : key.length < 2^32)
    (hv : value.length < 2^32) (hkvs : w.kvs.length+(key.length+value.length+8) < 2^64)
    (hs : (w.writeLeaf version key value hash).WrittenIn s) :
    s.exportLeaf (.ofNat l) = some ⟨key,value,version.toNat,0⟩ := by
  simp only [Snapshot.exportLeaf,leaf_written h hl hs,keyOffset_leafRecord,h.kvsOffset,
    keyValue_written hk hv hkvs hs,version_leafRecord,bind_eq_bind,bind_some]

end SnapshotWriter

def LeavesExported (s : Snapshot) : Persisted → ℕ → Prop
  | .leaf key value i,l => s.exportLeaf (.ofNat l) = some ⟨key,value,i.version.toNat,0⟩
  | .branch _ _ _ _ left right,l =>
    LeavesExported s left l ∧ LeavesExported s right (l+left.leafCount)

theorem SnapshotWriter.writeRecursive_leavesExported {w : SnapshotWriter} {t : Persisted} {l b : ℕ}
    {s : Snapshot} (h : w.At l b) (hb : b ≤ l) (hl : l+t.leafCount < 2^32) (ht : ShortEntries t)
    (hkvs : w.kvs.length+kvsLength t < 2^64) (hs : (w.writeRecursive t).WrittenIn s) :
    LeavesExported s t l := by
  induction t generalizing w l b with
  | leaf key value i =>
    obtain ⟨hk,hv⟩ := ht (key,value) (by simp [LeafTree.toList])
    simp only [LeafTree.leafCount,kvsLength] at hl hkvs
    exact exportLeaf_written h (by omega) hk hv hkvs hs
  | branch height size key i left right ihl ihr =>
    have hcl := leafCount_pos left
    simp only [LeafTree.leafCount,kvsLength] at hl hkvs
    have h₁ := h.writeRecursive left
    have hlen := length_kvs_writeRecursive w left
    have hshort : ShortEntries left ∧ ShortEntries right :=
      ⟨fun e he => ht e (by simp [LeafTree.toList,he]),
        fun e he => ht e (by simp [LeafTree.toList,he])⟩
    have hw₂ : ((w.writeRecursive left).writeRecursive right).WrittenIn s :=
      ⟨(prefix_append ..).trans hs.nodes,hs.leaves,hs.kvs⟩
    obtain ⟨hw₁,-⟩ := writeRecursive_stored h₁ (by omega) (by omega) hshort.2 (by omega) hw₂
    exact ⟨ihl h hb (by omega) hshort.1 (by omega) hw₁,
      ihr h₁ (by omega) (by omega) hshort.2 (by omega) hw₂⟩

namespace Snapshot

def leafNodes (s : Snapshot) (j u : ℕ) : Option (List ExportNode) :=
  (List.range' j u).mapM fun i => s.exportLeaf (.ofNat i)

theorem exportLeaves_eq (s : Snapshot) (u j : ℕ) :
    s.exportLeaves u (.ofNat j) = (s.leafNodes j u).map (·,.ofNat (j+u)) := by
  induction u generalizing j with
  | zero => rfl
  | succ u ih =>
    have hnext : UInt32.ofNat j+1 = .ofNat (j+1) := by
      rw [UInt32.ofNat_add]
      rfl
    rw [exportLeaves,hnext,ih,leafNodes,leafNodes,range'_succ,mapM_cons,
      show j+1+u = j+(u+1) by omega]
    cases s.exportLeaf (.ofNat j) with
    | none => rfl
    | some leaf =>
      cases (List.range' (j+1) u).mapM fun i => s.exportLeaf (.ofNat i) <;> rfl

variable {s : Snapshot} {u l b : ℕ} {nodes : List ExportNode}

theorem leafNodes_append {j : ℕ} {node : ExportNode} (h : s.leafNodes j u = some nodes)
    (hnode : s.exportLeaf (.ofNat (j+u)) = some node) :
    s.leafNodes j (u+1) = some (nodes ++ [node]) := by
  rw [leafNodes] at h ⊢
  rw [UInt32.ofNat_add] at hnode
  rw [← range'_append_1,mapM_append,h]
  simp [hnode]

/-- The state of the loop when the branches of a tree start: `l` leaves and `b` branches belong
to the nodes before, and `u` of these leaves are not exported yet. -/
structure Waiting (s : Snapshot) (l b u : ℕ) (nodes : List ExportNode) : Prop where
  le : u+b ≤ l
  nodes : s.leafNodes (l-u) u = some nodes

theorem Waiting.leaf {node : ExportNode} (h : s.Waiting l b u nodes)
    (hnode : s.exportLeaf (.ofNat l) = some node) :
    s.Waiting (l+1) b (u+1) (nodes ++ [node]) where
  le := by
    have := h.le
    omega
  nodes := by
    have hle := h.le
    rw [show l+1-(u+1) = l-u by omega]
    refine leafNodes_append h.nodes ?_
    rwa [show l-u+u = l by omega]

/-- A turn of the loop exports the leaves that wait and the branch behind them. -/
theorem exportLoop_branch {i : ℕ} {version size : UInt32} {height : UInt8} {keyLeaf : UInt32}
    {hash : Digest} {key : Bytes} (h : s.Waiting (l+2) b u nodes) (hb : b ≤ l) (hp : l-b < 256)
    (hnode : s.node (.ofNat i) =
      some (SnapshotWriter.branchRecord version size height (.ofNat (l-b)) keyLeaf hash))
    (hkey : s.leafKey keyLeaf = some key) (n : ℕ) :
    s.exportLoop (n+1) (.ofNat i) (.ofNat (l+2-u)) (l+2-b-u) =
      (s.exportLoop n (.ofNat (i+1)) (.ofNat (l+2)) (l+1-b)).map
        (nodes ++ ⟨key,[],version.toNat,toInt8 height.toNat⟩::·) := by
  have hle := h.le
  have hpre : (UInt8.ofNat (l-b)).toNat = l-b := by
    rw [UInt8.toNat_ofNat']
    omega
  have hnext : UInt32.ofNat i+1 = .ofNat (i+1) := by
    rw [UInt32.ofNat_add]
    rfl
  have hmissing : l-b+2-(l+2-b-u) = u := by omega
  simp only [exportLoop,hnode,bind_eq_bind,bind_some,preTrees_branchRecord,hpre,
    hmissing,exportLeaves_eq,h.nodes,map_some,keyLeaf_branchRecord,hkey,hnext,
    version_branchRecord,height_branchRecord]
  rw [show l+2-u+u = l+2 by omega,show l+2-b-u+u-1 = l+1-b by omega]
  cases s.exportLoop n (.ofNat (i+1)) (.ofNat (l+2)) (l+1-b) <;> rfl

theorem toInt8_ofNat (n : ℕ) : toInt8 (UInt8.ofNat n).toNat = toInt8 n := by
  simp only [toInt8,UInt8.toNat_ofNat',Int.natCast_emod]
  exact Int.emod_bmod n (2^8)

/-- The loop over the branches of a tree. What waited before and the nodes of the tree are
exported in post-order, up to the leaves that wait afterwards; only a single leaf lets the others
wait on. -/
theorem exportLoop_tree {t : Persisted} (ht : t.Exact) (hs : Stored s t l b)
    (hleaves : LeavesExported s t l) (hb : b ≤ l) (hp : l-b+t.waiting ≤ 256)
    (hw : s.Waiting l b u nodes) (n : ℕ) :
    ∃ u' done nodes', s.Waiting (l+t.leafCount) (b+t.leafCount-1) u' nodes' ∧
      done ++ nodes' = nodes ++ Contents.exported (t.mapAnn NodeInfo.version) ∧
      (t.leafCount ≠ 1 → u' = 0) ∧
      s.exportLoop (t.leafCount-1+n) (.ofNat b) (.ofNat (l-u)) (l-b-u) =
        (s.exportLoop n (.ofNat (b+t.leafCount-1)) (.ofNat (l+t.leafCount-u'))
          (l+t.leafCount-(b+t.leafCount-1)-u')).map (done ++ ·) := by
  induction t generalizing l b u nodes n with
  | leaf key value i =>
    refine ⟨u+1,[],_,hw.leaf hleaves,rfl,fun h => absurd rfl h,?_⟩
    simp only [LeafTree.leafCount]
    rw [show 1-1+n = n by omega,show b+1-1 = b by omega,show l+1-(u+1) = l-u by omega,
      show l+1-b-(u+1) = l-b-u by omega]
    simp
  | branch height size key i left right ihl ihr =>
    obtain ⟨hel,her,-,hkey⟩ := ht
    have hcl := leafCount_pos left
    have hcr := leafCount_pos right
    simp only [LeafTree.waiting] at hp
    obtain ⟨u₁,done₁,nodes₁,hw₁,hdone₁,-,hloop₁⟩ :=
      ihl hel hs.1 hleaves.1 hb (by omega) hw (right.leafCount-1+(n+1))
    obtain ⟨u₂,done₂,nodes₂,hw₂,hdone₂,-,hloop₂⟩ :=
      ihr her hs.2.1 hleaves.2 (by omega) (by omega) hw₁ (n+1)
    -- Both subtrees are finished and wait for the branch.
    obtain ⟨m,hm⟩ : ∃ m, l+left.leafCount+right.leafCount = m+2 :=
      ⟨l+left.leafCount+right.leafCount-2,by omega⟩
    obtain ⟨c,hc⟩ : ∃ c, c = b+left.leafCount-1+right.leafCount-1 := ⟨_,rfl⟩
    have hpre : m-c = l-b := by omega
    rw [← hc,hm] at hw₂ hloop₂
    have hnode := hs.2.2
    rw [show b+(left.leafCount+right.leafCount)-2 = c by omega,← hpre] at hnode
    have hturn := exportLoop_branch hw₂ (by omega) (by omega) hnode hs.2.1.leafKey_minKey n
    refine ⟨0,done₁ ++ done₂ ++ nodes₂ ++ [⟨right.minKey,[],i.version.toNat,
      toInt8 (UInt8.ofNat height).toNat⟩],[],⟨by omega,rfl⟩,?_,fun _ => rfl,?_⟩
    · have hall : done₁ ++ (done₂ ++ nodes₂) = nodes ++
          (Contents.exported (left.mapAnn NodeInfo.version) ++
            Contents.exported (right.mapAnn NodeInfo.version)) := by
        rw [hdone₂,← append_assoc,hdone₁,append_assoc]
      simp only [LeafTree.mapAnn,Contents.exported,Contents.exportNode,toInt8_ofNat,hkey,
        List.append_nil,← append_assoc] at hall ⊢
      rw [hall]
    · simp only [LeafTree.leafCount]
      rw [show left.leafCount+right.leafCount-1+n =
          left.leafCount-1+(right.leafCount-1+(n+1)) by omega,hloop₁,hloop₂]
      rw [hturn,show b+(left.leafCount+right.leafCount)-1 = c+1 by omega,
        show l+(left.leafCount+right.leafCount) = m+2 by omega,
        show m+2-(c+1)-0 = m+1-c by omega,Nat.sub_zero]
      simp [Option.map_map,Function.comp_def]

/-- The export of the files of a tree lists its nodes in post-order. -/
theorem exportNodes_snapshotOf (version : Version) {t : Persisted} (ht : t.Exact)
    (hwaiting : t.waiting ≤ 256) (hcount : t.leafCount < 2^32) (hshort : ShortEntries t)
    (hkvs : kvsLength t < 2^64) : (snapshotOf version t).exportNodes =
      some (Contents.exported (t.mapAnn NodeInfo.version)) := by
  obtain ⟨-,hstored⟩ := SnapshotWriter.writeRecursive_stored SnapshotWriter.at_start le_rfl
    (by simpa using hcount) hshort (by simpa using hkvs) (writtenIn_snapshotOf version t)
  have hleaves := SnapshotWriter.writeRecursive_leavesExported SnapshotWriter.at_start le_rfl
    (by simpa using hcount) hshort (by simpa using hkvs) (writtenIn_snapshotOf version t)
  have hat := SnapshotWriter.at_start.writeRecursive t
  simp only [Nat.zero_add] at hat
  have hleavesLen : (snapshotOf version t).leavesLen = t.leafCount := by
    rw [leavesLen]
    simp only [snapshotOf,hat.leaves]
    exact Nat.mul_div_cancel _ (by decide)
  have hnodesLen : (snapshotOf version t).nodesLen = t.leafCount-1 := by
    rw [nodesLen]
    simp only [snapshotOf,hat.nodes]
    exact Nat.mul_div_cancel _ (by decide)
  have hpos := leafCount_pos t
  rw [exportNodes,hleavesLen,hnodesLen,if_neg (by omega)]
  by_cases hone : t.leafCount = 1
  · rw [if_pos hone]
    cases t with
    | branch height size key i left right =>
      have hl := leafCount_pos left
      have hr := leafCount_pos right
      simp only [LeafTree.leafCount] at hone
      omega
    | leaf key value i =>
      obtain ⟨⟨data,hdata,hversion,-⟩,hkey,hkv⟩ := hstored
      simp only [show UInt32.ofNat 0 = 0 from rfl] at hdata hkey hkv
      simp [PersistedNode.version,PersistedNode.key,PersistedNode.value,PersistedNode.leafNode,
        hdata,hversion,hkey,hkv,LeafTree.mapAnn,Contents.exported,Contents.exportNode]
  · rw [if_neg hone]
    have hstart : (snapshotOf version t).Waiting 0 0 0 [] := ⟨le_rfl,rfl⟩
    obtain ⟨u,done,nodes,hw,hdone,hu,hloop⟩ :=
      exportLoop_tree ht hstored hleaves le_rfl (by omega) hstart 0
    have hnil : nodes = [] := by
      have h := hw.nodes
      rw [hu hone] at h
      exact (some.inj h).symm
    rw [hnil,List.append_nil,nil_append] at hdone
    simp only [Nat.add_zero,Nat.sub_zero,show UInt32.ofNat 0 = 0 from rfl] at hloop
    rw [hloop,← hdone]
    simp [exportLoop]

end Snapshot

/-- The nodes of a tree in post-order. -/
def StoreTree.exported (t : StoreTree) : List ExportNode :=
  match t.root with
  | none => []
  | some r => Contents.exported r

/-- A tree with the snapshot it was loaded from, which has the nodes of the tree as long as it has
its version. -/
structure LoadedTree where
  name : Bytes
  tree : StoreTree
  snapshot : Option Snapshot := none
  avl : tree.Avl
  loaded : ∀ s ∈ snapshot, tree.version = s.version →
    tree.Storable ∧ openSnapshot tree.writeTree = .ok s

namespace LoadedTree

/-- The normal post-order traversal. -/
def scan (t : LoadedTree) : List ExportNode :=
  match t.tree.root with
  | none => []
  | some r => scanPostOrder (Contents.scanTurns r) [(r,false)]

/-- `Tree.Export`, by the nodes that come through the channel. -/
def exportNodes (t : LoadedTree) : Option (List ExportNode) :=
  match t.snapshot with
  | none => some t.scan
  | some s => if t.tree.version = s.version then s.exportNodes else some t.scan

theorem scan_eq (t : LoadedTree) : t.scan = t.tree.exported := by
  rw [scan,StoreTree.exported]
  cases t.tree.root with
  | none => rfl
  | some r =>
    have h := scanPostOrder_tree r 0 []
    rwa [Nat.add_zero,scanPostOrder,List.append_nil] at h

/-- Both ways of exporting a tree list its nodes in post-order. -/
theorem exportNodes_eq (t : LoadedTree) : t.exportNodes = some t.tree.exported := by
  rw [exportNodes]
  cases hsnap : t.snapshot with
  | none => rw [scan_eq]
  | some s =>
    simp only
    split
    · rename_i hversion
      obtain ⟨hstorable,hopen⟩ := t.loaded s hsnap hversion
      rw [StoreTree.exported]
      cases hroot : t.tree.root with
      | none =>
        rw [StoreTree.writeTree,hroot,map_none,openSnapshot_empty] at hopen
        cases hopen
        simp [Snapshot.exportNodes,Snapshot.leavesLen]
      | some r =>
        obtain ⟨hcount,hshort,hkvs⟩ := hstorable (Contents.hashed r) (by simp [hroot])
        rw [StoreTree.writeTree,hroot,map_some,openSnapshot_writeSnapshot hcount] at hopen
        cases hopen
        have hr : (Contents.hashed r).Avl := by
          rw [← LeafTree.avl_mapAnn NodeInfo.version,Contents.mapAnn_hashed]
          exact t.avl r hroot
        have hheight := heightFits hr.balanced (hcount.trans (by norm_num))
        have hdepth := hr.balanced.measured.depth_eq
        have hwaiting := (Contents.hashed r).waiting_le_depth
        rw [Snapshot.exportNodes_snapshotOf _ hr.exact (by omega) hcount hshort hkvs,
          Contents.mapAnn_hashed]
    · rw [scan_eq]

end LoadedTree

inductive ExportItem
  | name (name : Bytes)
  | node (node : ExportNode)

/-- The trees that are left, and the nodes that are left of the one in work. -/
structure MultiTreeExporter where
  trees : List LoadedTree
  exporter : Option (List ExportNode) := none

namespace MultiTreeExporter

def nextTree (e : MultiTreeExporter) : Outcome (Option ExportItem × MultiTreeExporter) :=
  match e.trees with
  | [] => .ok (none,e)
  | tree::trees =>
    match tree.exportNodes with
    | none => .panic
    | some nodes => .ok (some (.name tree.name),⟨trees,some nodes⟩)

/-- `Next`; nothing is returned for `ErrorExportDone`. -/
def next (e : MultiTreeExporter) : Outcome (Option ExportItem × MultiTreeExporter) :=
  match e.exporter with
  | some (node::nodes) => .ok (some (.node node),{ e with exporter := some nodes })
  | some [] => nextTree { e with exporter := none }
  | none => nextTree e

/-- The loop of `Snapshot`, which writes an item for each one of the exporter. -/
def writeItems : ℕ → MultiTreeExporter → Outcome (List SnapshotItem)
  | 0,_ => .ok []
  | fuel+1,e => e.next.bind fun (item,e) =>
    match item with
    | none => .ok []
    | some (.name name) => (writeItems fuel e).map (.store name::·)
    | some (.node node) =>
      (writeItems fuel e).map (.iavl node.key node.value node.version node.height::·)

end MultiTreeExporter

def ExportNode.item (n : ExportNode) : SnapshotItem := .iavl n.key n.value n.version n.height

def LoadedTree.items (t : LoadedTree) : List SnapshotItem :=
  .store t.name::t.tree.exported.map ExportNode.item

/-- `Snapshot` of these trees; the loop ends after all items. -/
def snapshotStream (trees : List LoadedTree) : Outcome (List SnapshotItem) :=
  MultiTreeExporter.writeItems ((trees.flatMap LoadedTree.items).length+1) ⟨trees,none⟩

namespace MultiTreeExporter

theorem writeItems_nodes (nodes : List ExportNode) (trees : List LoadedTree) (fuel : ℕ) :
    writeItems (nodes.length+fuel) ⟨trees,some nodes⟩ =
      (writeItems fuel ⟨trees,some []⟩).map (nodes.map ExportNode.item ++ ·) := by
  induction nodes with
  | nil =>
    rw [length_nil,Nat.zero_add]
    cases writeItems fuel ⟨trees,some []⟩ <;> rfl
  | cons node nodes ih =>
    rw [length_cons,Nat.add_right_comm,writeItems]
    simp only [next,Outcome.bind_ok,ih]
    cases writeItems fuel ⟨trees,some []⟩ <;> rfl

theorem writeItems_trees (trees : List LoadedTree) (nodes : Option (List ExportNode))
    (hnodes : nodes = none ∨ nodes = some []) :
    writeItems ((trees.flatMap LoadedTree.items).length+1) ⟨trees,nodes⟩ =
      .ok (trees.flatMap LoadedTree.items) := by
  induction trees generalizing nodes with
  | nil => rcases hnodes with rfl | rfl <;> rfl
  | cons tree trees ih =>
    have hnext : next ⟨tree::trees,nodes⟩ =
        .ok (some (.name tree.name),⟨trees,some tree.tree.exported⟩) := by
      rcases hnodes with rfl | rfl <;> simp [next,nextTree,tree.exportNodes_eq]
    have hlen : ((tree::trees).flatMap LoadedTree.items).length =
        tree.tree.exported.length+(trees.flatMap LoadedTree.items).length+1 := by
      simp [LoadedTree.items]
    rw [hlen,writeItems,hnext,Outcome.bind_ok,Nat.add_assoc]
    simp only [writeItems_nodes,ih (some []) (.inr rfl)]
    rfl

end MultiTreeExporter

theorem snapshotStream_eq (trees : List LoadedTree) :
    snapshotStream trees = .ok (trees.flatMap LoadedTree.items) :=
  MultiTreeExporter.writeItems_trees trees none (.inl rfl)

end Memiavl
