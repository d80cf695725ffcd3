import Memiavl.Disk

/-! Restoring a multi-store from state-sync data: the importer of one tree, which is fed with
nodes in post-order, the importer of all trees, and the loop over the items of the stream. A
call can panic. The channel between the loop and the importer of a tree is left out here: a tree
is imported when its channel is closed. -/
namespace Memiavl

/-- How a call ends. -/
inductive Outcome (α : Type)
  | ok (a : α)
  | error (err : String)
  | panic
  deriving DecidableEq

namespace Outcome
variable {α β : Type}

def bind (x : Outcome α) (f : α → Outcome β) : Outcome β :=
  match x with
  | ok a => f a
  | error err => error err
  | panic => panic

def map (f : α → β) (x : Outcome α) : Outcome β := x.bind fun a => ok (f a)

def ofExcept : Except String α → Outcome α
  | .ok a => ok a
  | .error err => error err

@[simp] theorem bind_ok (a : α) (f : α → Outcome β) : (ok a).bind f = f a := rfl
@[simp] theorem bind_error (err : String) (f : α → Outcome β) : (error err).bind f = error err := rfl
@[simp] theorem bind_panic (f : α → Outcome β) : panic.bind f = panic := rfl

theorem bind_eq_ok {x : Outcome α} {f : α → Outcome β} {b : β} (h : x.bind f = ok b) :
    ∃ a, x = ok a ∧ f a = ok b := by
  cases x with
  | ok a => exact ⟨a,rfl,h⟩
  | error err => cases h
  | panic => cases h

@[simp] theorem map_ok (f : α → β) (a : α) : (ok a).map f = ok (f a) := rfl
@[simp] theorem map_error (f : α → β) (err : String) : (error err).map f = error err := rfl
@[simp] theorem map_panic (f : α → β) : panic.map f = panic := rfl

end Outcome

def toUint32 (x : ℤ) : UInt32 := .ofNat (x % 2^32).toNat

def toUint8 (x : ℤ) : UInt8 := .ofNat (x % 2^8).toNat

def toInt8 (x : ℤ) : ℤ := x.bmod (2^8)

def maxInt8 : ℤ := 127

/-- `ExportNode`; the version is an `int64` and the height an `int8`. -/
structure ExportNode where
  key : Bytes
  value : Bytes
  version : ℤ
  height : ℤ
  deriving DecidableEq

/-- What the parent of a node on `nodeStack` takes from it. -/
structure ImportedNode where
  size : ℕ
  hash : Digest
  deriving DecidableEq

/-- `importer`, with the tops of its stacks first. -/
structure Importer where
  writer : SnapshotWriter := {}
  leavesStack : List UInt32 := []
  nodeStack : List ImportedNode := []

namespace Importer

/-- `importer.Add`. A branch takes its children from the stacks; it panics when there are less
than two. The count of the other pending nodes is cut to eight bits. -/
def add (i : Importer) (n : ExportNode) : Outcome Importer :=
  if n.version > maxUint32 then .error s!"version overflows uint32: {n.version}"
  else
    let version := toUint32 n.version
    if n.height = 0 then
      let hash := leafHash n.key n.value version
      let writer := i.writer.writeLeaf version n.key n.value hash
      .ok ⟨writer,writer.leafCounter::i.leavesStack,⟨1,hash⟩::i.nodeStack⟩
    else
      match i.leavesStack,i.nodeStack with
      | _::keyLeaf::leaves,right::left::nodes =>
        let height := toUint8 n.height
        let size := left.size+right.size
        let hash := branchHash height.toNat size version left.hash right.hash
        let preTrees := UInt8.ofNat nodes.length
        let writer := i.writer.writeBranch version (.ofNat size) height preTrees keyLeaf hash
        .ok ⟨writer,writer.leafCounter::leaves,⟨size,hash⟩::nodes⟩
      | _,_ => .panic

/-- The nodes that `doImport` takes from the channel. -/
def addAll (i : Importer) : List ExportNode → Outcome Importer
  | [] => .ok i
  | n::ns => (i.add n).bind fun i => i.addAll ns

/-- The end of `doImport`, with `writeSnapshot` around it: the writers are flushed only when
leaves were counted. -/
def finish (i : Importer) (version : Version) : Outcome TreeFiles :=
  let flush (leafCounter : UInt32) : TreeFiles :=
    if leafCounter > 0 then ⟨metadataBytes version,i.writer.nodes,i.writer.leaves,i.writer.kvs⟩
    else ⟨metadataBytes version,[],[],[]⟩
  match i.leavesStack.length with
  | 0 => .ok (flush 0)
  | 1 => .ok (flush i.writer.leafCounter)
  | n => .error s!"invalid node structure, found stack size {n} after imported"

end Importer

def doImport (version : ℕ) (nodes : List ExportNode) : Outcome TreeFiles :=
  if version > maxUint32 then .error s!"version overflows uint32: {version}"
  else (Importer.addAll {} nodes).bind fun i => i.finish (.ofNat version)

/-- The trees of a directory after the files of one of them were written. -/
def putFiles {β : Type} (name : Bytes) (files : β) (trees : List (Bytes × β)) : List (Bytes × β) :=
  trees.filter (fun f => f.1 ≠ name) ++ [(name,files)]

def Snapshot.rootHash (s : Snapshot) : Option Digest :=
  match s.rootNode with
  | none => some emptyHash
  | some p => p.hash

/-- The end of `Finalize`, with the temporary directory as it is filled by then. -/
def Disk.promote (d : Disk) (height : ℕ) (dir : SnapshotDir) : Outcome Disk :=
  match { d with tmpDirs := Disk.putDir height dir d.tmpDirs }.renameTmp height with
  | none => .error "file exists"
  | some d =>
    match d.updateCurrentSymlink height with
    | (_,some err) => .error err
    | (d,none) => .ok d

structure MultiTreeImporter where
  height : ℕ
  /-- The trees in the temporary directory, if that directory exists. -/
  trees : Option (List (Bytes × TreeFiles)) := none
  /-- The tree in work, and the nodes that were sent to its importer. -/
  importer : Option (Bytes × List ExportNode) := none

namespace MultiTreeImporter

def closeImporter (m : MultiTreeImporter) : Outcome MultiTreeImporter :=
  match m.importer with
  | none => .ok m
  | some (name,nodes) => (doImport m.height nodes).map fun files =>
      { m with trees := some (putFiles name files (m.trees.getD [])), importer := none }

def addTree (m : MultiTreeImporter) (name : Bytes) : Outcome MultiTreeImporter :=
  m.closeImporter.map fun m => { m with importer := some (name,[]) }

/-- `AddNode`, which panics when no tree was added before. -/
def addNode (m : MultiTreeImporter) (node : ExportNode) : Outcome MultiTreeImporter :=
  match m.importer with
  | none => .panic
  | some (name,nodes) => .ok { m with importer := some (name,nodes ++ [node]) }

def storeInfos (height : ℕ) : List (Bytes × TreeFiles) → Outcome (List StoreInfo)
  | [] => .ok []
  | f::fs => (Outcome.ofExcept (openSnapshot f.2)).bind fun s =>
    match s.rootHash with
    | none => .panic
    | some hash => (storeInfos height fs).map fun infos => ⟨f.1,⟨height,hash⟩⟩::infos

def updateMetadataFile (height : ℕ) (trees : List (Bytes × TreeFiles)) : Outcome SnapshotDir :=
  (storeInfos height (trees.insertionSort fun a b => a.1 ≤ b.1)).map fun infos =>
    ⟨trees,⟨⟨height,infos⟩,height+1⟩⟩

def finalize (m : MultiTreeImporter) (d : Disk) : Outcome Disk :=
  m.closeImporter.bind fun m =>
    match m.trees with
    | none => .error "no such file or directory"
    | some trees => (updateMetadataFile m.height trees).bind fun dir =>
      d.promote m.height dir

end MultiTreeImporter

/-- An item of the stream; the version of a node is an `int64` and its height an `int32`. -/
inductive SnapshotItem
  | store (name : Bytes)
  | iavl (key value : Bytes) (version height : ℤ)
  /-- Any other item. -/
  | extension
  /-- A message that cannot be read. -/
  | invalid (err : String)
  deriving DecidableEq

namespace MultiTreeImporter

/-- A return with an error: the deferred `Close` still waits for the tree in work. -/
def fail {α : Type} (m : MultiTreeImporter) (err : String) : Outcome α :=
  match m.closeImporter with
  | .panic => .panic
  | _ => .error err

/-- The loop of `restore`, with the item at which it ends. -/
def restoreLoop (m : MultiTreeImporter) :
    List SnapshotItem → Outcome (Option SnapshotItem × MultiTreeImporter)
  | [] => .ok (none,m)
  | .store name::items => (m.addTree name).bind fun m => m.restoreLoop items
  | .iavl key value version height::items =>
    if height > maxInt8 then
      m.fail s!"node height {height} cannot exceed {maxInt8}: internal logic error"
    else (m.addNode ⟨key,value,version,toInt8 height⟩).bind fun m => m.restoreLoop items
  | .extension::_ => .ok (some .extension,m)
  | .invalid err::_ => m.fail s!"invalid protobuf message: {err}"

end MultiTreeImporter

/-- `restore` of `rootmulti`, into a directory that may hold a temporary directory of the same
height. The directory is given when it returns without an error. -/
def Disk.restore (d : Disk) (height : ℕ) (items : List SnapshotItem) :
    Outcome (Option SnapshotItem × Disk) :=
  if height > maxUint32 then .error s!"version overflows uint32: {height}"
  else
    let m : MultiTreeImporter := ⟨height,(d.tmpDirs.lookup height).map SnapshotDir.trees,none⟩
    (m.restoreLoop items).bind fun (item,m) => (m.finalize d).map fun d => (item,d)

end Memiavl
