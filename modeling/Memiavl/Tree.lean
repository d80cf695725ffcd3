import Memiavl.HeapUpdate
import Memiavl.HeapHash

/-! `Tree` and the heap that trees and their copies share. The value cache of a tree and
the zero-copy flag only concern reads and are left out. -/
namespace Memiavl

def maxUint32 : ℕ := 2^32-1

structure Tree where
  version : Version
  cowVersion : Version := 0
  root : Option Node := none
  deriving DecidableEq

namespace Tree

/-- `NewEmptyTree`; a version from `MaxUint32` on panics. -/
def newEmptyTree (version : ℕ) : Option Tree :=
  if version ≥ maxUint32 then none else some { version := .ofNat version }

def newFromSnapshot (s : Snapshot) : Tree :=
  { version := s.version, root := s.rootNode.map .persisted }

/-- Fuel that suffices for every path from the root. -/
def fuel (t : Tree) : HeapM MemNode ℕ :=
  match t.root with
  | none => pure 1
  | some n => do return (← n.height)+1

/-- `Copy`: the tree as it goes on, and its copy. The nodes in memory are protected from
changes in place by either of them. -/
def copy (t : Tree) : Tree × Tree :=
  match t.root with
  | some (.mem _) => ({ t with cowVersion := t.version },{ t with cowVersion := t.version })
  | _ => (t,t)

/-- `set`; a missing value is stored as the empty one. -/
def set (t : Tree) (key : Bytes) (value : Option Bytes) : HeapM MemNode Tree := do
  let fuel ← t.fuel
  let (n,_) ← setRecursive key (value.getD []) (t.version+1) t.cowVersion fuel t.root
  return { t with root := some (.mem n) }

/-- `remove`, with the removed value that the code drops. -/
def remove (t : Tree) (key : Bytes) : HeapM MemNode (Option Bytes × Tree) := do
  let fuel ← t.fuel
  let (value,n,_) ← removeRecursive key (t.version+1) t.cowVersion fuel t.root
  return (value,{ t with root := n })

def rootHash (t : Tree) : HeapM MemNode Digest := do
  let fuel ← t.fuel
  match t.root with
  | none => return emptyHash
  | some n => n.hash fuel

/-- `SaveVersion`: the hash, if it was asked for, and the tree at its next version. -/
def saveVersion (t : Tree) (updateHash : Bool) :
    HeapM MemNode (Except String (Option Digest × Tree)) := do
  if t.version.toNat = maxUint32 then
    return .error s!"version overflows uint32: {t.version}"
  else
    let hash ← if updateHash then do pure (some (← t.rootHash)) else pure none
    return .ok (hash,{ t with version := t.version+1 })

/-- The nodes of the tree as they stand in the heap. -/
def contents (t : Tree) (h : Heap) : Option (Option Mixed) :=
  match t.root with
  | none => some none
  | some n => do
    let (height,_) ← n.height h
    let m ← n.walk h (height+1)
    some (some m)

end Tree

/-- A tree with a mark whether it has changes that are not saved yet. -/
structure Handle where
  tree : Tree
  pending : Bool
  deriving DecidableEq

/-- A heap and the trees in it, by name. -/
structure World where
  heap : Heap
  trees : ℕ → Option Handle

namespace World

inductive Op
  | newEmptyTree (id version : ℕ)
  | newFromSnapshot (id : ℕ) (s : Snapshot)
  | set (id : ℕ) (key : Bytes) (value : Option Bytes)
  | remove (id : ℕ) (key : Bytes)
  | rootHash (id : ℕ)
  | saveVersion (id : ℕ) (updateHash : Bool)
  | copy (id dst : ℕ)

def Op.on : Op → ℕ
  | newEmptyTree id _ | newFromSnapshot id _ | set id _ _ | remove id _ | rootHash id
  | saveVersion id _ | copy id _ => id

inductive Reply
  | done
  | hash (d : Digest)
  | saved (hash : Option Digest) (version : Version)
  | error (message : String)
  deriving DecidableEq

def empty : World := ⟨{},fun _ => none⟩

def put (w : World) (h : Heap) (id : ℕ) (x : Handle) : World :=
  ⟨h,Function.update w.trees id (some x)⟩

/-- One operation; `none` is a panic, or an operation on a tree that does not exist. -/
def step (w : World) : Op → Option (Reply × World)
  | .newEmptyTree id version => do
    let t ← Tree.newEmptyTree version
    some (.done,w.put w.heap id ⟨t,false⟩)
  | .newFromSnapshot id s => some (.done,w.put w.heap id ⟨.newFromSnapshot s,false⟩)
  | .set id key value => do
    let x ← w.trees id
    let (t,h) ← x.tree.set key value w.heap
    some (.done,w.put h id ⟨t,true⟩)
  | .remove id key => do
    let x ← w.trees id
    let ((value,t),h) ← x.tree.remove key w.heap
    some (.done,w.put h id ⟨t,x.pending || value.isSome⟩)
  | .rootHash id => do
    let x ← w.trees id
    let (d,h) ← x.tree.rootHash w.heap
    some (.hash d,{ w with heap := h })
  | .saveVersion id updateHash => do
    let x ← w.trees id
    match ← x.tree.saveVersion updateHash w.heap with
    | (.error e,h) => some (.error e,{ w with heap := h })
    | (.ok (hash,t),h) => some (.saved hash t.version,w.put h id ⟨t,false⟩)
  | .copy id dst => do
    let x ← w.trees id
    let (t,c) := x.tree.copy
    some (.done,(w.put w.heap id ⟨t,x.pending⟩).put w.heap dst ⟨c,x.pending⟩)

/-- New trees take free names, snapshots are valid, and a tree with changes that are not
saved is not copied. -/
def Allowed (P : Snapshot → Prop) (w : World) : Op → Prop
  | .newEmptyTree id version => w.trees id = none ∧ version < maxUint32
  | .newFromSnapshot id s => w.trees id = none ∧ P s
  | .set id _ _ | .remove id _ | .rootHash id | .saveVersion id _ => (w.trees id).isSome
  | .copy id dst => w.trees dst = none ∧ ∃ x, w.trees id = some x ∧ x.pending = false

/-- The worlds that operations lead to; `P` says which snapshots may be loaded. -/
inductive Reachable (P : Snapshot → Prop) : World → Prop
  | empty : Reachable P empty
  | step {w w' : World} {r : Reply} (op : Op) : Reachable P w → w.Allowed P op →
      w.step op = some (r,w') → Reachable P w'

end World

/-- A snapshot that can be read and holds a tree with the invariant. -/
def Snapshot.Valid (s : Snapshot) : Prop := ∃ root, s.tree = some root ∧ ∀ t ∈ root, t.Avl

/-- Every stored hash is the one that `HashNode` computes. -/
def Snapshot.Verified (s : Snapshot) : Prop :=
  ∀ root, s.tree = some root → ∀ t ∈ root, Mixed.Verified (t.mapAnn NodeInfo.stamp)

end Memiavl
