import Memiavl.MultiTree

/-! The directory of a database: snapshots, the link to the current one, the write-ahead
log, and the steps by which they change. A snapshot directory is known by its version. -/
namespace Memiavl

structure Disk where
  /-- The directories `snapshot-V`, smallest version first. -/
  snapshots : List (ℕ × SnapshotDir) := []
  /-- The directories `snapshot-V-tmp`. -/
  tmpDirs : List (ℕ × SnapshotDir) := []
  /-- The snapshot that the link `current` names. -/
  current : Option ℕ := none
  /-- The snapshot that the link `current-tmp` names. -/
  currentTmp : Option ℕ := none
  wal : IndexedLog WALEntry := {}
  deriving DecidableEq

/-- `parseVersion` of the name of a snapshot: the version has to fit a signed 32-bit integer. -/
def parseVersion (v : ℕ) : Except String ℕ :=
  if v < 2^31 then .ok v else .error s!"snapshot version overflows: {v}"

namespace Disk

def versions (d : Disk) : List ℕ := d.snapshots.map Prod.fst

/-- `traverseSnapshots` in `seekSnapshot`, from the largest version down. -/
def seekIn (targetVersion : ℕ) : List ℕ → Except String ℕ
  | [] => .error s!"target version is pruned: {targetVersion}"
  | v::vs =>
    match parseVersion v with
    | .error e => .error s!"invalid snapshot name: {e}"
    | .ok v => if v ≤ targetVersion then .ok v else seekIn targetVersion vs

def seekSnapshot (d : Disk) (targetVersion : ℕ) : Except String ℕ :=
  seekIn targetVersion d.versions.reverse

def firstSnapshotVersion (d : Disk) : Except String ℕ :=
  match d.versions with
  | [] => .error "empty memiavl db"
  | v::_ =>
    match parseVersion v with
    | .error e => .error s!"invalid snapshot name: {e}"
    | .ok v => if v = 0 then .error "empty memiavl db" else .ok v

def currentVersion (d : Disk) : Except String ℕ :=
  match d.current with
  | none => .error "no such file or directory"
  | some v => parseVersion v

def loadMultiTree (d : Disk) (v : ℕ) : Except String MultiTree :=
  match d.snapshots.lookup v with
  | none => .error "no such file or directory"
  | some dir => MultiTree.load dir

def loadCurrent (d : Disk) : Except String MultiTree :=
  match d.current with
  | none => .error "no such file or directory"
  | some v => d.loadMultiTree v

def putDir (v : ℕ) (dir : SnapshotDir) (dirs : List (ℕ × SnapshotDir)) : List (ℕ × SnapshotDir) :=
  (dirs.filter fun p => p.1 ≠ v).orderedInsert (fun a b => a.1 ≤ b.1) (v,dir)

theorem lookup_putDir (v : ℕ) (dir : SnapshotDir) (dirs : List (ℕ × SnapshotDir)) :
    (putDir v dir dirs).lookup v = some dir := by
  induction dirs with
  | nil => simp [putDir]
  | cons p dirs ih =>
    unfold putDir at ih ⊢
    rw [List.filter_cons]
    split
    · rename_i hp
      have hne : (v == p.1) = false := beq_eq_false_iff_ne.mpr (of_decide_eq_true hp).symm
      rw [List.orderedInsert]
      split
      · simp [List.lookup]
      · rw [List.lookup_cons,hne]
        exact ih
    · exact ih

def removeDir (v : ℕ) (dirs : List (ℕ × SnapshotDir)) : List (ℕ × SnapshotDir) :=
  dirs.filter fun p => p.1 ≠ v

/-- Trees in a directory that may be missing. -/
def oldTrees (dirs : List (ℕ × SnapshotDir)) (v : ℕ) : List (Bytes × TreeFiles) :=
  ((dirs.lookup v).map SnapshotDir.trees).getD []

def writeTmp (d : Disk) (t : MultiTree) : Disk :=
  { d with tmpDirs := putDir t.version (t.writeSnapshot (oldTrees d.tmpDirs t.version)) d.tmpDirs }

def dropTmp (d : Disk) (v : ℕ) : Disk := { d with tmpDirs := removeDir v d.tmpDirs }

/-- Renames the temporary directory, which fails when the snapshot exists. -/
def renameTmp (d : Disk) (v : ℕ) : Option Disk :=
  match d.tmpDirs.lookup v with
  | none => none
  | some dir =>
    if v ∈ d.versions then none
    else some { d with
      snapshots := putDir v dir d.snapshots
      tmpDirs := removeDir v d.tmpDirs }

/-- Creates the link `current-tmp`, which fails when it exists. -/
def linkTmp (d : Disk) (v : ℕ) : Option Disk :=
  if d.currentTmp.isSome then none else some { d with currentTmp := some v }

def renameLink (d : Disk) : Option Disk :=
  match d.currentTmp with
  | none => none
  | some v => some { d with current := some v, currentTmp := none }

def updateCurrentSymlink (d : Disk) (v : ℕ) : Disk × Option String :=
  match d.linkTmp v with
  | none => (d,some "file exists")
  | some d =>
    match d.renameLink with
    | none => (d,some "no such file or directory")
    | some d => (d,none)

/-- `RewriteSnapshot`, with the directory as a failed step leaves it. -/
def rewriteSnapshot (d : Disk) (t : MultiTree) : Disk × Option String :=
  let d := d.writeTmp t
  match d.renameTmp t.version with
  | none => (d,some "file exists")
  | some d => d.updateCurrentSymlink t.version

/-- Writes the snapshot of an empty database. -/
def writeEmpty (d : Disk) (initialVersion : UInt32) : Disk :=
  let dir := (MultiTree.newEmpty initialVersion).writeSnapshot (oldTrees d.snapshots 0)
  { d with snapshots := putDir 0 dir d.snapshots }

def initEmptyDB (d : Disk) (initialVersion : UInt32) : Disk × Option String :=
  (d.writeEmpty initialVersion).updateCurrentSymlink 0

/-- Initialises a directory in which `current` leads to no metadata file. -/
def createDBIfNotExist (d : Disk) (initialVersion : UInt32) : Disk × Option String :=
  match d.current with
  | none => d.initEmptyDB initialVersion
  | some v => if v ∈ d.versions then (d,none) else d.initEmptyDB initialVersion

def removeTmpDirs (d : Disk) : Disk := { d with tmpDirs := [] }

/-- The snapshots that the loop in `pruneSnapshots` removes, from the largest version down. -/
def toPrune (current : ℕ) : ℕ → List ℕ → Except String (List ℕ)
  | _,[] => .ok []
  | counter,v::vs =>
    match parseVersion v with
    | .error e => .error s!"invalid snapshot name: {e}"
    | .ok v =>
      if v ≥ current then toPrune current counter vs
      else if 0 < counter then toPrune current (counter-1) vs
      else
        match toPrune current counter vs with
        | .error e => .error e
        | .ok rest => .ok (v::rest)

/-- `atomicRemoveDir` of a snapshot. The rename to `snapshot-V-tmp` fails when that directory is
there; the error is only logged. -/
def removeSnapshot (d : Disk) (v : ℕ) : Disk :=
  if v ∈ d.tmpDirs.map Prod.fst then d else { d with snapshots := removeDir v d.snapshots }

/-- Truncates the log before the earliest snapshot; an error is only logged. -/
def truncateWAL (d : Disk) (initialVersion : UInt32) : Disk :=
  let earliest := match d.firstSnapshotVersion with
    | .ok v => v
    | .error _ => 0
  match d.wal.truncateFront (walIndex (earliest+1) initialVersion) with
  | none => d
  | some wal => { d with wal }

def startSnapshot (d : Disk) (targetVersion : ℕ) : Except String ℕ :=
  if 0 < targetVersion then
    match d.seekSnapshot targetVersion with
    | .error e => .error s!"fail to seek snapshot: {e}"
    | .ok v => .ok v
  else
    match d.current with
    | none => .error "no such file or directory"
    | some v => .ok v

/-- The snapshot that `Load` starts from, and its trees after the catch-up. -/
def loadTarget (d : Disk) (targetVersion : ℕ) : Except String (ℕ × MultiTree) :=
  match d.startSnapshot targetVersion with
  | .error e => .error e
  | .ok v =>
    match d.loadMultiTree v with
    | .error e => .error e
    | .ok t =>
      if targetVersion = 0 ∨ t.version < targetVersion then
        match t.catchupWAL d.wal targetVersion with
        | .error e => .error e
        | .ok t => .ok (v,t)
      else .ok (v,t)

/-- `LoadForOverwriting`: the link is set back, the log is truncated, and the snapshots
after the target are removed, from the largest one down. -/
def overwrite (d : Disk) (targetVersion v : ℕ) (initialVersion : UInt32) : Disk × Option String :=
  match d.current with
  | none => (d,some "fail to read current version: no such file or directory")
  | some current =>
    match if v = current then (d,none) else d.updateCurrentSymlink v with
    | (d,some e) => (d,some s!"fail to update current snapshot link: {e}")
    | (d,none) =>
      match d.wal.truncateBack (walIndex targetVersion initialVersion) with
      | none => (d,some "fail to truncate wal logs: out of range")
      | some wal =>
        let d := { d with wal }
        match d.versions.reverse.head?.map parseVersion with
        | some (.error e) => (d,some s!"fail to prune snapshots: {e}")
        | _ => ({ d with snapshots := d.snapshots.filter fun p => p.1 ≤ targetVersion },none)

/-- The directories between the steps of `initEmptyDB`. -/
def initPoints (d : Disk) (initialVersion : UInt32) : List Disk :=
  d.writeEmpty initialVersion :: ((d.writeEmpty initialVersion).linkTmp 0).toList

/-- The directories between the steps of `createDBIfNotExist`. -/
def createPoints (d : Disk) (initialVersion : UInt32) : List Disk :=
  match d.current with
  | none => d.initPoints initialVersion
  | some v => if v ∈ d.versions then [] else d.initPoints initialVersion

/-- The directories between the steps of `RewriteSnapshot`. A temporary directory that is not yet
complete counts as complete, since nobody reads it after the process has ended. -/
def rewritePoints (d : Disk) (t : MultiTree) : List Disk :=
  let d := d.writeTmp t
  d :: match d.renameTmp t.version with
    | none => []
    | some d => d :: (d.linkTmp t.version).toList

/-- The directories between the steps of `LoadForOverwriting`. -/
def overwritePoints (d : Disk) (targetVersion v : ℕ) (initialVersion : UInt32) : List Disk :=
  match d.current with
  | none => []
  | some current =>
    (if v = current then [] else (d.linkTmp v).toList) ++
      match if v = current then (d,none) else d.updateCurrentSymlink v with
      | (_,some _) => []
      | (d,none) => d ::
        match d.wal.truncateBack (walIndex targetVersion initialVersion) with
        | none => []
        | some wal =>
          let d := { d with wal }
          let kept := (d.snapshots.filter fun p => p.1 ≤ targetVersion).length
          d :: match d.versions.reverse.head?.map parseVersion with
            | some (.error _) => []
            | _ => (List.range' kept (d.snapshots.length-kept)).map fun n =>
              { d with snapshots := d.snapshots.take n }

end Disk
end Memiavl
