import Memiavl.Library.CellHeap
import Memiavl.Snapshot

/-! The nodes of a tree in memory and the recursive updates of a tree. A `MemNode` is a
cell that several trees may point to; a `PersistedNode` is a position in a snapshot. A
program fails where the code would panic. Recursion down the tree takes fuel, which the
callers choose from the height of the root. -/
namespace Memiavl

/-- A reference to a node: the address of a `MemNode`, or a node of a snapshot. -/
inductive Node
  | mem (addr : ℕ)
  | persisted (p : PersistedNode)
  deriving DecidableEq

/-- A missing pointer, value or hash is `nil` in the code. -/
structure MemNode where
  height : ℕ := 0
  size : ℕ
  version : Version
  key : Bytes
  value : Option Bytes := none
  left : Option Node := none
  right : Option Node := none
  hash : Option Digest := none
  deriving DecidableEq

abbrev Heap := CellHeap MemNode

def newLeafNode (key value : Bytes) (version : Version) : MemNode :=
  { key := key, value := some value, version := version, size := 1 }

namespace Node
open HeapM

def height : Node → HeapM MemNode ℕ
  | .mem a => do return (← load a).height
  | .persisted p => do return (← lift p.height).toNat

def isLeaf : Node → HeapM MemNode Bool
  | .mem a => do return (← load a).height == 0
  | .persisted p => pure p.isLeaf

def size : Node → HeapM MemNode ℕ
  | .mem a => do return (← load a).size
  | .persisted p => lift p.size

def key : Node → HeapM MemNode Bytes
  | .mem a => do return (← load a).key
  | .persisted p => lift p.key

def value : Node → HeapM MemNode (Option Bytes)
  | .mem a => do return (← load a).value
  | .persisted p => if p.isLeaf then do return some (← lift p.value) else pure none

/-- A child that is used right away must not be `nil`. -/
def left : Node → HeapM MemNode Node
  | .mem a => do lift (← load a).left
  | .persisted p => if p.isLeaf then lift none else do return .persisted (← lift p.left)

def right : Node → HeapM MemNode Node
  | .mem a => do lift (← load a).right
  | .persisted p => if p.isLeaf then lift none else do return .persisted (← lift p.right)

/-- `Mutate`: a `MemNode` newer than `cowVersion` is changed in place, every other node
is copied into a new cell. -/
def mutate (version cowVersion : Version) : Node → HeapM MemNode ℕ
  | .mem a => do
    let n ← load a
    if n.version ≤ cowVersion then alloc { n with version := version, hash := none }
    else
      modify a fun n => { n with version := version, hash := none }
      return a
  | .persisted p => do
    if p.isLeaf then
      let (key,value) ← lift (p.snapshot.leafKeyValue p.index)
      alloc { height := 0, size := 1, version := version, key := key, value := some value }
    else
      let height ← lift p.height
      let size ← lift p.size
      let key ← lift p.key
      let left ← lift p.left
      let right ← lift p.right
      alloc { height := height.toNat, size := size, version := version, key := key,
              left := some (.persisted left), right := some (.persisted right) }

end Node

namespace MemNode
open HeapM

def updateHeightSize (a : ℕ) : HeapM MemNode Unit := do
  let left ← Node.left (.mem a)
  let right ← Node.right (.mem a)
  let leftHeight ← left.height
  let rightHeight ← right.height
  modify a fun n => { n with height := max leftHeight rightHeight + 1 }
  let leftSize ← left.size
  let rightSize ← right.size
  modify a fun n => { n with size := leftSize + rightSize }

def calcBalance (node : Node) : HeapM MemNode ℤ := do
  let left ← node.left
  let right ← node.right
  return (← left.height) - (← right.height)

def rotateRight (a : ℕ) (version cowVersion : Version) : HeapM MemNode ℕ := do
  let left ← Node.left (.mem a)
  let newSelf ← left.mutate version cowVersion
  let leftRight ← left.right
  modify a fun n => { n with left := some leftRight }
  modify newSelf fun n => { n with right := some (.mem a) }
  updateHeightSize a
  updateHeightSize newSelf
  return newSelf

def rotateLeft (a : ℕ) (version cowVersion : Version) : HeapM MemNode ℕ := do
  let right ← Node.right (.mem a)
  let newSelf ← right.mutate version cowVersion
  let rightLeft ← right.left
  modify a fun n => { n with right := some rightLeft }
  modify newSelf fun n => { n with left := some (.mem a) }
  updateHeightSize a
  updateHeightSize newSelf
  return newSelf

def reBalance (a : ℕ) (version cowVersion : Version) : HeapM MemNode ℕ := do
  let balance ← calcBalance (.mem a)
  if 1 < balance then
    let left ← Node.left (.mem a)
    let leftBalance ← calcBalance left
    if 0 ≤ leftBalance then
      rotateRight a version cowVersion
    else
      let newLeft ← left.mutate version cowVersion
      let newLeft ← rotateLeft newLeft version cowVersion
      modify a fun n => { n with left := some (.mem newLeft) }
      rotateRight a version cowVersion
  else if balance < -1 then
    let right ← Node.right (.mem a)
    let rightBalance ← calcBalance right
    if rightBalance ≤ 0 then
      rotateLeft a version cowVersion
    else
      let newRight ← right.mutate version cowVersion
      let newRight ← rotateRight newRight version cowVersion
      modify a fun n => { n with right := some (.mem newRight) }
      rotateLeft a version cowVersion
  else return a

end MemNode

open HeapM MemNode

/-- `setRecursive`: the new root of the subtree, and whether a leaf was overwritten. -/
def setRecursive (key value : Bytes) (version cowVersion : Version) :
    ℕ → Option Node → HeapM MemNode (ℕ × Bool)
  | 0, _ => lift none
  | _+1, none => do
    let n ← alloc (newLeafNode key value version)
    pure (n,true)
  | fuel+1, some node => do
    let nodeKey ← node.key
    let isLeaf ← node.isLeaf
    if isLeaf then
      if key < nodeKey then
        let leaf ← alloc (newLeafNode key value version)
        let n ← alloc { height := 1, size := 2, version := version, key := nodeKey,
                        left := some (.mem leaf), right := some node }
        pure (n,false)
      else if nodeKey < key then
        let leaf ← alloc (newLeafNode key value version)
        let n ← alloc { height := 1, size := 2, version := version, key := key,
                        left := some node, right := some (.mem leaf) }
        pure (n,false)
      else
        let newNode ← node.mutate version cowVersion
        modify newNode fun n => { n with value := some value }
        pure (newNode,true)
    else if key < nodeKey then
      let child ← node.left
      let (newChild,updated) ← setRecursive key value version cowVersion fuel (some child)
      let newNode ← node.mutate version cowVersion
      modify newNode fun n => { n with left := some (.mem newChild) }
      if updated then pure (newNode,true)
      else
        updateHeightSize newNode
        let newNode ← reBalance newNode version cowVersion
        pure (newNode,false)
    else
      let child ← node.right
      let (newChild,updated) ← setRecursive key value version cowVersion fuel (some child)
      let newNode ← node.mutate version cowVersion
      modify newNode fun n => { n with right := some (.mem newChild) }
      if updated then pure (newNode,true)
      else
        updateHeightSize newNode
        let newNode ← reBalance newNode version cowVersion
        pure (newNode,false)

/-- `removeRecursive`: the removed value, the new root of the subtree and its new smallest
key, as far as there are such. -/
def removeRecursive (key : Bytes) (version cowVersion : Version) :
    ℕ → Option Node → HeapM MemNode (Option Bytes × Option Node × Option Bytes)
  | 0, _ => lift none
  | _+1, none => pure (none,none,none)
  | fuel+1, some node => do
    let nodeKey ← node.key
    let isLeaf ← node.isLeaf
    if isLeaf then
      if nodeKey = key then
        let value ← node.value
        pure (value,none,none)
      else pure (none,some node,none)
    else if key < nodeKey then
      let child ← node.left
      let (value,newLeft,newKey) ← removeRecursive key version cowVersion fuel (some child)
      if value = none then pure (none,some node,none)
      else match newLeft with
        | none =>
          let right ← node.right
          pure (value,some right,some nodeKey)
        | some newLeft =>
          let newNode ← node.mutate version cowVersion
          modify newNode fun n => { n with left := some newLeft }
          updateHeightSize newNode
          let newNode ← reBalance newNode version cowVersion
          pure (value,some (.mem newNode),newKey)
    else
      let child ← node.right
      let (value,newRight,newKey) ← removeRecursive key version cowVersion fuel (some child)
      if value = none then pure (none,some node,none)
      else match newRight with
        | none =>
          let left ← node.left
          pure (value,some left,none)
        | some newRight =>
          let newNode ← node.mutate version cowVersion
          modify newNode fun n =>
            { n with right := some newRight, key := newKey.getD n.key }
          updateHeightSize newNode
          let newNode ← reBalance newNode version cowVersion
          pure (value,some (.mem newNode),none)

/-- `Node.Hash`: a hash in the cell or in the file is returned as it is, and a hash that
`HashNode` computes is kept in the cell. -/
def Node.hash : ℕ → Node → HeapM MemNode Digest
  | 0, _ => lift none
  | _+1, .persisted p => lift p.hash
  | fuel+1, .mem a => do
    let n ← load a
    match n.hash with
    | some d => pure d
    | none =>
      if n.height = 0 then
        let d := leafHash n.key (n.value.getD []) n.version
        modify a fun n => { n with hash := some d }
        pure d
      else
        let left ← lift n.left
        let right ← lift n.right
        let leftHash ← Node.hash fuel left
        let rightHash ← Node.hash fuel right
        let d := branchHash n.height n.size n.version leftHash rightHash
        modify a fun n => { n with hash := some d }
        pure d

/-- What a node of a snapshot keeps, as part of a tree in memory. -/
def NodeInfo.stamp (i : NodeInfo) : Stamp := ⟨i.version,some i.hash⟩

/-- The nodes below a reference as they stand in the heap. -/
def Node.walk (h : Heap) : ℕ → Node → Option Mixed
  | fuel, .persisted p => (p.walk fuel).map (LeafTree.mapAnn NodeInfo.stamp)
  | 0, .mem _ => none
  | fuel+1, .mem a => do
    let n ← h.read a
    if n.height = 0 then
      guard (n.size = 1)
      let value ← n.value
      some (.leaf n.key value ⟨n.version,none⟩)
    else
      let left ← n.left
      let right ← n.right
      let l ← Node.walk h fuel left
      let r ← Node.walk h fuel right
      some (.branch n.height n.size n.key ⟨n.version,none⟩ l r)

end Memiavl
