import Memiavl.Node

/-! The snapshot files of one tree: how `writeRecursive` lays the nodes out in
post-order, how `OpenSnapshot` checks the files, and how a `PersistedNode` finds
its fields and its children. A read that would panic in the code is `none` here. -/
namespace Memiavl

def SnapshotFileMagic : ℕ := 1280721225

def SnapshotFormat : ℕ := 0

def SizeMetadata : ℕ := 12

def OffsetHeight : ℕ := 0

def OffsetPreTrees : ℕ := 1

def OffsetVersion : ℕ := 4

def OffsetSize : ℕ := 8

def OffsetKeyLeaf : ℕ := 12

def OffsetHash : ℕ := 16

def SizeHash : ℕ := 32

def SizeNode : ℕ := 48

def OffsetLeafVersion : ℕ := 0

def OffsetLeafKeyLen : ℕ := 4

def OffsetLeafKeyOffset : ℕ := 8

def OffsetLeafHash : ℕ := 16

def SizeLeaf : ℕ := 48

/-- Version and hash of a node, as a snapshot keeps them. -/
structure NodeInfo where
  version : Version
  hash : Digest
  deriving DecidableEq

/-- A tree as it stands in a snapshot. -/
abbrev Persisted := LeafTree Bytes Bytes NodeInfo

structure TreeFiles where
  metadata : Bytes
  nodes : Bytes
  leaves : Bytes
  kvs : Bytes
  deriving DecidableEq

/-- `snapshotWriter`: the three files so far and the counters. -/
structure SnapshotWriter where
  nodes : Bytes := []
  leaves : Bytes := []
  kvs : Bytes := []
  branchCounter : UInt32 := 0
  leafCounter : UInt32 := 0
  kvsOffset : UInt64 := 0

namespace SnapshotWriter

def writeKeyValue (w : SnapshotWriter) (key value : Bytes) : SnapshotWriter :=
  { w with
    kvs := w.kvs ++ (Bytes.putLE 4 key.length ++ key ++ Bytes.putLE 4 value.length ++ value)
    kvsOffset := w.kvsOffset + (4 + 4 + UInt64.ofNat key.length + UInt64.ofNat value.length) }

def leafRecord (version : Version) (key : Bytes) (offset : UInt64) (hash : Digest) : Bytes :=
  Bytes.putLE 4 version.toNat ++ Bytes.putLE 4 key.length ++ Bytes.putLE 8 offset.toNat ++ hash.val

def writeLeaf (w : SnapshotWriter) (version : Version) (key value : Bytes) (hash : Digest) :
    SnapshotWriter :=
  let w₁ := w.writeKeyValue key value
  { w₁ with
    leaves := w₁.leaves ++ leafRecord version key w.kvsOffset hash
    leafCounter := w₁.leafCounter + 1 }

def branchRecord (version size : UInt32) (height preTrees : UInt8) (keyLeaf : UInt32)
    (hash : Digest) : Bytes :=
  [height,preTrees,0,0] ++ Bytes.putLE 4 version.toNat ++ Bytes.putLE 4 size.toNat ++
    Bytes.putLE 4 keyLeaf.toNat ++ hash.val

def writeBranch (w : SnapshotWriter) (version size : UInt32) (height preTrees : UInt8)
    (keyLeaf : UInt32) (hash : Digest) : SnapshotWriter :=
  { w with
    nodes := w.nodes ++ branchRecord version size height preTrees keyLeaf hash
    branchCounter := w.branchCounter + 1 }

/-- Depth-first post-order; `preTrees` counts the finished subtrees that still wait
for their parent, in eight bits. -/
def writeRecursive (w : SnapshotWriter) : Persisted → SnapshotWriter
  | .leaf key value i => w.writeLeaf i.version key value i.hash
  | .branch height size _ i left right =>
    let preTrees := (w.leafCounter - w.branchCounter).toUInt8
    let w₁ := w.writeRecursive left
    let keyLeaf := w₁.leafCounter
    let w₂ := w₁.writeRecursive right
    w₂.writeBranch i.version (UInt32.ofNat size) (UInt8.ofNat height) preTrees keyLeaf i.hash

end SnapshotWriter

def metadataBytes (version : Version) : Bytes :=
  Bytes.putLE 4 SnapshotFileMagic ++ Bytes.putLE 4 SnapshotFormat ++ Bytes.putLE 4 version.toNat

/-- `Tree.WriteSnapshot` with `writeSnapshot`: the writers are flushed only when leaves
were counted. -/
def writeSnapshot (version : Version) (root : Option Persisted) : TreeFiles :=
  let w : SnapshotWriter := match root with
    | none => {}
    | some t => SnapshotWriter.writeRecursive {} t
  if w.leafCounter > 0 then ⟨metadataBytes version,w.nodes,w.leaves,w.kvs⟩
  else ⟨metadataBytes version,[],[],[]⟩

structure Snapshot where
  nodes : Bytes
  leaves : Bytes
  kvs : Bytes
  version : Version
  /-- Position of the root: whether it is a leaf, and its index. -/
  root : Option (Bool × UInt32)
  deriving DecidableEq

def openSnapshot (f : TreeFiles) : Except String Snapshot :=
  if f.metadata.length ≠ SizeMetadata then
    .error s!"wrong metadata file size, expected: {SizeMetadata}, found: {f.metadata.length}"
  else
    let magic := Bytes.getLE (f.metadata.take 4)
    let format := Bytes.getLE ((f.metadata.drop 4).take 4)
    let version := Bytes.getLE ((f.metadata.drop 8).take 4)
    if magic ≠ SnapshotFileMagic then .error s!"invalid metadata file magic: {magic}"
    else if format ≠ SnapshotFormat then .error s!"unknown snapshot format: {format}"
    else if f.nodes.length % SizeNode ≠ 0 then
      .error s!"corrupted snapshot, nodes file size {f.nodes.length} is not a multiple of {SizeNode}"
    else if f.leaves.length % SizeLeaf ≠ 0 then
      .error s!"corrupted snapshot, leaves file size {f.leaves.length} is not a multiple of {SizeLeaf}"
    else
      let nodesLen := f.nodes.length / SizeNode
      let leavesLen := f.leaves.length / SizeLeaf
      if (leavesLen > 0 ∧ nodesLen + 1 ≠ leavesLen) ∨ (leavesLen = 0 ∧ nodesLen ≠ 0) then
        .error s!"corrupted snapshot, branch nodes size {nodesLen} don't match leaves size {leavesLen}"
      else
        .ok ⟨f.nodes,f.leaves,f.kvs,UInt32.ofNat version,
          if nodesLen > 0 then some (false,UInt32.ofNat (nodesLen - 1))
          else if leavesLen > 0 then some (true,0) else none⟩

namespace NodeLayout

def height (data : Bytes) : UInt8 := data.getD OffsetHeight 0

def preTrees (data : Bytes) : UInt8 := data.getD OffsetPreTrees 0

def version (data : Bytes) : UInt32 := UInt32.ofNat (Bytes.getLE ((data.drop OffsetVersion).take 4))

def size (data : Bytes) : UInt32 := UInt32.ofNat (Bytes.getLE ((data.drop OffsetSize).take 4))

def keyLeaf (data : Bytes) : UInt32 := UInt32.ofNat (Bytes.getLE ((data.drop OffsetKeyLeaf).take 4))

def hash (data : Bytes) : Bytes := (data.drop OffsetHash).take SizeHash

end NodeLayout

namespace LeafLayout

def version (data : Bytes) : UInt32 :=
  UInt32.ofNat (Bytes.getLE ((data.drop OffsetLeafVersion).take 4))

def keyLength (data : Bytes) : UInt32 :=
  UInt32.ofNat (Bytes.getLE ((data.drop OffsetLeafKeyLen).take 4))

def keyOffset (data : Bytes) : UInt64 :=
  UInt64.ofNat (Bytes.getLE ((data.drop OffsetLeafKeyOffset).take 8))

def hash (data : Bytes) : Bytes := (data.drop OffsetLeafHash).take 32

end LeafLayout

def asDigest (bz : Bytes) : Option Digest := if h : bz.length = 32 then some ⟨bz,h⟩ else none

namespace Snapshot

def node (s : Snapshot) (i : UInt32) : Option Bytes := Bytes.slice s.nodes (i.toNat*SizeNode) SizeNode

def leaf (s : Snapshot) (i : UInt32) : Option Bytes := Bytes.slice s.leaves (i.toNat*SizeLeaf) SizeLeaf

def leafKey (s : Snapshot) (index : UInt32) : Option Bytes := do
  let leaf ← s.leaf index
  let offset := LeafLayout.keyOffset leaf + 4
  Bytes.slice s.kvs offset.toNat (LeafLayout.keyLength leaf).toNat

def leafKeyValue (s : Snapshot) (index : UInt32) : Option (Bytes × Bytes) := do
  let leaf ← s.leaf index
  let offset := LeafLayout.keyOffset leaf + 4
  let length := (LeafLayout.keyLength leaf).toUInt64
  let key ← Bytes.slice s.kvs offset.toNat length.toNat
  let offset := offset + length
  let length ← Bytes.slice s.kvs offset.toNat 4
  let offset := offset + 4
  let value ← Bytes.slice s.kvs offset.toNat (Bytes.getLE length)
  some (key,value)

end Snapshot

/-- `PersistedNode`: a position in the files of a snapshot. -/
structure PersistedNode where
  snapshot : Snapshot
  isLeaf : Bool
  index : UInt32
  deriving DecidableEq

def getStartLeaf (index size preTrees : UInt32) : UInt32 := index + 2 - size + preTrees

def getEndLeaf (index preTrees : UInt32) : UInt32 := index + preTrees + 1

def getLeftBranch (keyLeaf preTrees : UInt32) : UInt32 := keyLeaf - preTrees - 2

namespace PersistedNode

def branchNode (p : PersistedNode) : Option Bytes := p.snapshot.node p.index

def leafNode (p : PersistedNode) : Option Bytes := p.snapshot.leaf p.index

def height (p : PersistedNode) : Option UInt8 :=
  if p.isLeaf then some 0 else p.branchNode.map NodeLayout.height

def version (p : PersistedNode) : Option Version :=
  if p.isLeaf then p.leafNode.map LeafLayout.version else p.branchNode.map NodeLayout.version

def size (p : PersistedNode) : Option ℕ :=
  if p.isLeaf then some 1 else p.branchNode.map fun d => (NodeLayout.size d).toNat

def key (p : PersistedNode) : Option Bytes :=
  if p.isLeaf then p.snapshot.leafKey p.index
  else do
    let data ← p.branchNode
    p.snapshot.leafKey (NodeLayout.keyLeaf data)

def value (p : PersistedNode) : Option Bytes :=
  (p.snapshot.leafKeyValue p.index).map Prod.snd

def left (p : PersistedNode) : Option PersistedNode := do
  let data ← p.branchNode
  let preTrees := (NodeLayout.preTrees data).toUInt32
  let startLeaf := getStartLeaf p.index (NodeLayout.size data) preTrees
  let keyLeaf := NodeLayout.keyLeaf data
  if startLeaf + 1 = keyLeaf then some ⟨p.snapshot,true,startLeaf⟩
  else some ⟨p.snapshot,false,getLeftBranch keyLeaf preTrees⟩

def right (p : PersistedNode) : Option PersistedNode := do
  let data ← p.branchNode
  let keyLeaf := NodeLayout.keyLeaf data
  let preTrees := (NodeLayout.preTrees data).toUInt32
  if keyLeaf = getEndLeaf p.index preTrees then some ⟨p.snapshot,true,keyLeaf⟩
  else some ⟨p.snapshot,false,p.index - 1⟩

def hash (p : PersistedNode) : Option Digest :=
  if p.isLeaf then p.leafNode.bind fun d => asDigest (LeafLayout.hash d)
  else p.branchNode.bind fun d => asDigest (NodeLayout.hash d)

/-- Follow `Left` and `Right` down to the leaves and collect all fields on the way. -/
def walk : ℕ → PersistedNode → Option Persisted
  | 0, _ => none
  | fuel+1, p => do
    let version ← p.version
    let hash ← p.hash
    let key ← p.key
    if p.isLeaf then
      let value ← p.value
      some (.leaf key value ⟨version,hash⟩)
    else
      let height ← p.height
      let size ← p.size
      let left ← p.left
      let right ← p.right
      let l ← walk fuel left
      let r ← walk fuel right
      some (.branch height.toNat size key ⟨version,hash⟩ l r)

end PersistedNode

def Snapshot.rootNode (s : Snapshot) : Option PersistedNode :=
  s.root.map fun r => ⟨s,r.1,r.2⟩

/-- The whole tree of a snapshot, read from its root. A height field has eight bits, so
no path down is longer than that. -/
def Snapshot.tree (s : Snapshot) : Option (Option Persisted) :=
  match s.rootNode with
  | none => some none
  | some p => (p.walk 256).map some

end Memiavl
