import Memiavl.StoreTree
import Memiavl.Library.IndexedLog
import Memiavl.Library.FileTree

/-! `MultiTree`: the named trees of a database, their upgrades and change sets, their
versions, and the replay of a write-ahead log. A method that can fail returns the state it
leaves behind with the error. -/
namespace Memiavl

structure NamedTree where
  name : Bytes
  tree : StoreTree
  deriving DecidableEq

structure CommitID where
  version : ℕ
  hash : Digest
  deriving DecidableEq

structure StoreInfo where
  name : Bytes
  commitId : CommitID
  deriving DecidableEq

structure CommitInfo where
  version : ℕ := 0
  storeInfos : List StoreInfo := []
  deriving DecidableEq

structure MultiTreeMetadata where
  commitInfo : CommitInfo := {}
  initialVersion : ℕ := 0
  deriving DecidableEq

structure TreeNameUpgrade where
  name : Bytes
  renameFrom : Bytes := []
  delete : Bool := false
  deriving DecidableEq

structure NamedChangeSet where
  name : Bytes
  changeset : ChangeSet
  deriving DecidableEq

structure WALEntry where
  changesets : List NamedChangeSet := []
  upgrades : List TreeNameUpgrade := []
  deriving DecidableEq

/-- A tree name in an error message. -/
def nameText (name : Bytes) : String := String.ofList (name.map fun b => Char.ofNat b.toNat)

def nextVersion (v : ℕ) (initialVersion : UInt32) : ℕ :=
  if v = 0 ∧ 1 < initialVersion.toNat then initialVersion.toNat else v+1

/-- `walIndex`; the subtraction is that of unsigned 64-bit integers. -/
def walIndex (v : ℕ) (initialVersion : UInt32) : ℕ :=
  if 1 < initialVersion.toNat then
    if initialVersion.toNat ≤ v+1 then v+1-initialVersion.toNat
    else 2^64-(initialVersion.toNat-(v+1))
  else v

def walVersion (index : ℕ) (initialVersion : UInt32) : ℕ :=
  if 1 < initialVersion.toNat then index+initialVersion.toNat-1 else index

structure MultiTree where
  initialVersion : UInt32
  trees : List NamedTree := []
  /-- Positions of the trees by name. -/
  treesByName : List (Bytes × ℕ) := []
  lastCommitInfo : CommitInfo := {}
  /-- The metadata of the snapshot that was loaded. -/
  metadata : MultiTreeMetadata := {}
  deriving DecidableEq

namespace MultiTree

def newEmpty (initialVersion : UInt32) : MultiTree := { initialVersion }

def version (t : MultiTree) : ℕ := t.lastCommitInfo.version

def snapshotVersion (t : MultiTree) : ℕ := t.metadata.commitInfo.version

/-- `setInitialVersion`. -/
def putInitialVersion (t : MultiTree) (initialVersion : UInt32) : MultiTree :=
  { t with
    initialVersion
    trees := if 1 < initialVersion.toNat then
        t.trees.map fun e => { e with tree := e.tree.setInitialVersion initialVersion }
      else t.trees }

/-- `SetInitialVersion`. -/
def setInitialVersion (t : MultiTree) (initialVersion : ℤ) : MultiTree × Option String :=
  if initialVersion ≥ maxUint32 then (t,some s!"version overflows uint32: {initialVersion}")
  else if t.version ≠ 0 then (t,some s!"multi tree is not empty: {t.version}")
  else
    match t.trees.find? fun e => !e.tree.isEmpty with
    | some e => (t,some s!"tree is not empty: {nameText e.name}")
    | none => (t.putInitialVersion (UInt32.ofNat (initialVersion % 2^32).toNat),none)

/-- Swap deletion: the last tree takes the place of the deleted one. -/
def swapDelete (trees : List NamedTree) (i : ℕ) : List NamedTree :=
  match trees.getLast? with
  | none => trees
  | some last => (trees.set i last).dropLast

/-- One upgrade; `next` is the version that new trees start with. -/
def applyUpgrade (next : UInt32) (trees : List NamedTree) (u : TreeNameUpgrade) :
    Except String (List NamedTree) :=
  if u.delete then
    match trees.findIdx? fun e => e.name = u.name with
    | none => .error s!"unknown tree name {nameText u.name}"
    | some i => .ok (swapDelete trees i)
  else if u.renameFrom ≠ [] then
    match trees.findIdx? fun e => e.name = u.renameFrom with
    | none => .error s!"unknown tree name {nameText u.renameFrom}"
    | some i => .ok (trees.modify i fun e => { e with name := u.name })
  else .ok (trees ++ [⟨u.name,.newWithInitialVersion next⟩])

/-- The loop over the upgrades, with the trees as far as it came. -/
def upgradeTrees (next : UInt32) (trees : List NamedTree) :
    List TreeNameUpgrade → List NamedTree × Option String
  | [] => (trees,none)
  | u::us =>
    match applyUpgrade next trees u with
    | .error e => (trees,some e)
    | .ok trees => upgradeTrees next trees us

/-- The loop that rebuilds the index, from position `i` on. -/
def buildIndex (i : ℕ) (index : List (Bytes × ℕ)) :
    List NamedTree → List (Bytes × ℕ) × Option String
  | [] => (index,none)
  | t::ts =>
    if (index.lookup t.name).isSome then
      (index,some s!"memiavl tree name conflicts: {nameText t.name}")
    else buildIndex (i+1) (index ++ [(t.name,i)]) ts

def sortByName (trees : List NamedTree) : List NamedTree :=
  trees.insertionSort fun a b => a.name ≤ b.name

def applyUpgrades (t : MultiTree) (upgrades : List TreeNameUpgrade) : MultiTree × Option String :=
  if upgrades = [] then (t,none)
  else
    let next := UInt32.ofNat (nextVersion t.version t.initialVersion)
    match upgradeTrees next t.trees upgrades with
    | (trees,some e) => ({ t with trees, treesByName := [] },some e)
    | (trees,none) =>
      let trees := sortByName trees
      let p := buildIndex 0 [] trees
      ({ t with trees, treesByName := p.1 },p.2)

def applyChangeSet (t : MultiTree) (name : Bytes) (changeSet : ChangeSet) :
    MultiTree × Option String :=
  match t.treesByName.lookup name with
  | none => (t,some s!"unknown tree name {nameText name}")
  | some i =>
    ({ t with trees := t.trees.modify i fun e =>
        { e with tree := e.tree.applyChangeSet changeSet } },none)

def applyChangeSets (t : MultiTree) : List NamedChangeSet → MultiTree × Option String
  | [] => (t,none)
  | cs::css =>
    match t.applyChangeSet cs.name cs.changeset with
    | (t,some e) => (t,some e)
    | (t,none) => t.applyChangeSets css

def applyWALEntry (t : MultiTree) (entry : WALEntry) : MultiTree × Option String :=
  match t.applyUpgrades entry.upgrades with
  | (t,some e) => (t,some e)
  | (t,none) => t.applyChangeSets entry.changesets

def buildCommitInfo (t : MultiTree) (version : ℕ) : CommitInfo :=
  ⟨version,t.trees.map fun e => ⟨e.name,e.tree.version.toNat,e.tree.rootHash⟩⟩

def updateCommitInfo (t : MultiTree) : MultiTree :=
  { t with lastCommitInfo := t.buildCommitInfo t.lastCommitInfo.version }

/-- The loop over the trees, which stops at the first tree that cannot be saved. -/
def saveTrees : List NamedTree → List NamedTree × Option String
  | [] => ([],none)
  | e::es =>
    match e.tree.saveVersion with
    | .error err => (e::es,some err)
    | .ok tree =>
      let p := saveTrees es
      ({ e with tree }::p.1,p.2)

def saveVersion (t : MultiTree) (update : Bool) : MultiTree × Except String ℕ :=
  let v := nextVersion t.lastCommitInfo.version t.initialVersion
  let t := { t with lastCommitInfo := { t.lastCommitInfo with version := v } }
  match saveTrees t.trees with
  | (trees,some e) => ({ t with trees },.error e)
  | (trees,none) =>
    let t := { t with trees }
    (if update then t.updateCommitInfo else { t with lastCommitInfo := ⟨v,[]⟩ },.ok v)

/-- One round of the loop in `CatchupWAL`. -/
def replay (t : MultiTree) (entry : WALEntry) : Except String MultiTree :=
  match t.applyWALEntry entry with
  | (_,some e) => .error s!"replay wal entry failed, {e}"
  | (t,none) =>
    match t.saveVersion false with
    | (_,.error e) => .error s!"replay change set failed, {e}"
    | (t,.ok _) => .ok t

def replayFrom (wal : IndexedLog WALEntry) (t : MultiTree) (i : ℕ) : ℕ → Except String MultiTree
  | 0 => .ok t
  | n+1 =>
    match wal.read i with
    | none => .error "read wal log failed, not found"
    | some entry =>
      match t.replay entry with
      | .error e => .error e
      | .ok t => replayFrom wal t (i+1) n

def catchupWAL (t : MultiTree) (wal : IndexedLog WALEntry) (endVersion : ℕ) :
    Except String MultiTree :=
  let lastIndex := wal.lastIndex
  let firstIndex := walIndex (nextVersion t.version t.initialVersion) t.initialVersion
  if firstIndex > lastIndex then .ok t
  else
    let endIndex := if endVersion = 0 then lastIndex else walIndex endVersion t.initialVersion
    if endIndex < firstIndex then .error s!"target index {endIndex} is pruned"
    else
      match replayFrom wal t firstIndex (min endIndex lastIndex+1-firstIndex) with
      | .error e => .error e
      | .ok t => .ok t.updateCommitInfo

end MultiTree

def FileNameMetadata : Bytes := [109,101,116,97,100,97,116,97]

def MetadataFileName : Bytes := [95,95] ++ FileNameMetadata

/-- A name that `filepath.Join` leads to a directory of that name: no path, not the name of the
metadata file, and within what file systems take as a name. -/
def PlainName (name : Bytes) : Prop :=
  FileTree.join [] name = [name] ∧ FileTree.ValidName name ∧ name.length ≤ 255 ∧
    name ≠ MetadataFileName

instance (name : Bytes) : Decidable (PlainName name) := by
  unfold PlainName
  infer_instance

/-- A snapshot directory: one directory for each tree, and the metadata file. The directory of a
tree has its name, which is so for a `PlainName`. -/
structure SnapshotDir where
  trees : List (Bytes × TreeFiles)
  metadata : MultiTreeMetadata
  deriving DecidableEq

namespace MultiTree

def PlainNames (t : MultiTree) : Prop := ∀ e ∈ t.trees, PlainName e.name

instance (t : MultiTree) : Decidable t.PlainNames := by
  unfold PlainNames
  infer_instance

/-- `MultiTree.WriteSnapshot` into a directory in which some trees may be there already. -/
def writeSnapshot (t : MultiTree) (old : List (Bytes × TreeFiles)) : SnapshotDir :=
  ⟨t.trees.map (fun e => (e.name,e.tree.writeTree)) ++
      old.filter (fun f => ∀ e ∈ t.trees, e.name ≠ f.1),
    ⟨t.lastCommitInfo,t.initialVersion.toNat⟩⟩

def readMetadata (d : SnapshotDir) : Except String MultiTreeMetadata :=
  if d.metadata.commitInfo.version > maxUint32 then
    .error s!"commit info version overflows uint32: {d.metadata.commitInfo.version}"
  else if d.metadata.initialVersion > maxUint32 then
    .error s!"initial version overflows uint32: {d.metadata.initialVersion}"
  else .ok d.metadata

/-- Opens the directories of the trees, which are listed by name. -/
def loadTrees : List (Bytes × TreeFiles) → Except String (List NamedTree)
  | [] => .ok []
  | f::fs => do
    let tree ← StoreTree.load f.2
    let trees ← loadTrees fs
    return ⟨f.1,tree⟩::trees

def indexOf (trees : List NamedTree) : List (Bytes × ℕ) :=
  trees.zipIdx.map fun p => (p.1.name,p.2)

def load (d : SnapshotDir) : Except String MultiTree := do
  let metadata ← readMetadata d
  let trees ← loadTrees (d.trees.insertionSort fun a b => a.1 ≤ b.1)
  let t : MultiTree := ⟨0,trees,indexOf trees,metadata.commitInfo,metadata⟩
  return t.putInitialVersion (UInt32.ofNat metadata.initialVersion)

end MultiTree

/-- A version that commits can lead to: none yet, or one from the last before the initial
version on, which is where an imported state starts. -/
def Committable (v : ℕ) (initialVersion : UInt32) : Prop := v = 0 ∨ initialVersion.toNat ≤ v+1

/-- The number of entries of the log that lead to a version. -/
def entriesAt (v : ℕ) (initialVersion : UInt32) : ℕ := if v = 0 then 0 else walIndex v initialVersion

section
variable {v : ℕ} {iv : UInt32}

theorem lt_nextVersion (v : ℕ) (iv : UInt32) : v < nextVersion v iv := by
  unfold nextVersion
  split <;> omega

theorem Committable.next (h : Committable v iv) : Committable (nextVersion v iv) iv := by
  unfold Committable nextVersion at *
  split <;> omega

theorem walIndex_of_pos (hv : 0 < v) : walIndex v iv = entriesAt v iv := by
  rw [entriesAt,if_neg (by omega)]

theorem entriesAt_nextVersion (h : Committable v iv) :
    entriesAt (nextVersion v iv) iv = entriesAt v iv+1 := by
  have hpos := lt_nextVersion v iv
  unfold Committable entriesAt nextVersion walIndex at *
  split_ifs at * <;> omega

theorem walIndex_nextVersion (h : Committable v iv) :
    walIndex (nextVersion v iv) iv = entriesAt v iv+1 := by
  rw [← entriesAt_nextVersion h,walIndex_of_pos (by have := lt_nextVersion v iv; omega)]

theorem walVersion_eq_iff (h : Committable v iv) (hv : 0 < entriesAt v iv) {i : ℕ} (hi : 0 < i) :
    walVersion i iv = v ↔ i = walIndex v iv := by
  unfold Committable entriesAt walIndex walVersion at *
  split_ifs at * <;> omega

end

namespace MultiTree

/-- The trees may differ, the versions do not. -/
structure SameVersion (t t' : MultiTree) : Prop where
  initialVersion : t'.initialVersion = t.initialVersion
  lastCommitInfo : t'.lastCommitInfo = t.lastCommitInfo
  metadata : t'.metadata = t.metadata

theorem SameVersion.refl (t : MultiTree) : SameVersion t t := ⟨rfl,rfl,rfl⟩

variable {t t' : MultiTree} {wal : IndexedLog WALEntry} {i : ℕ} {trees : List NamedTree}

theorem SameVersion.trans {t'' : MultiTree} (h : SameVersion t t') (hh : SameVersion t' t'') :
    SameVersion t t'' :=
  ⟨hh.initialVersion.trans h.initialVersion,hh.lastCommitInfo.trans h.lastCommitInfo,
    hh.metadata.trans h.metadata⟩

theorem sameVersion_applyUpgrades (t : MultiTree) (us : List TreeNameUpgrade) :
    SameVersion t (t.applyUpgrades us).1 := by
  unfold applyUpgrades
  split
  · exact .refl t
  · simp only
    split <;> exact ⟨rfl,rfl,rfl⟩

theorem sameVersion_applyChangeSet (t : MultiTree) (name : Bytes) (cs : ChangeSet) :
    SameVersion t (t.applyChangeSet name cs).1 := by
  unfold applyChangeSet
  split <;> exact ⟨rfl,rfl,rfl⟩

theorem sameVersion_applyChangeSets (t : MultiTree) (css : List NamedChangeSet) :
    SameVersion t (t.applyChangeSets css).1 := by
  induction css generalizing t with
  | nil => exact .refl t
  | cons cs css ih =>
    have h := sameVersion_applyChangeSet t cs.name cs.changeset
    unfold applyChangeSets
    split
    · rename_i he
      rwa [he] at h
    · rename_i he
      rw [he] at h
      exact h.trans (ih _)

theorem sameVersion_applyWALEntry (t : MultiTree) (entry : WALEntry) :
    SameVersion t (t.applyWALEntry entry).1 := by
  have h := sameVersion_applyUpgrades t entry.upgrades
  unfold applyWALEntry
  split
  · rename_i he
    rwa [he] at h
  · rename_i he
    rw [he] at h
    exact h.trans (sameVersion_applyChangeSets _ _)

/-- The versions of a database that started empty or from an imported state. -/
structure Sane (t : MultiTree) : Prop where
  committable : Committable t.version t.initialVersion
  snapshot : t.snapshotVersion ≤ t.version

/-- The number of entries that lead to the trees. -/
def position (t : MultiTree) : ℕ := entriesAt t.version t.initialVersion

namespace SameVersion
variable (h : SameVersion t t')
include h

theorem version_eq : t'.version = t.version := by
  rw [version,version,h.lastCommitInfo]

theorem snapshotVersion_eq : t'.snapshotVersion = t.snapshotVersion := by
  rw [snapshotVersion,snapshotVersion,h.metadata]

theorem position_eq : t'.position = t.position := by
  rw [position,position,h.version_eq,h.initialVersion]

theorem sane (ht : t.Sane) : t'.Sane :=
  ⟨by rw [h.version_eq,h.initialVersion]; exact ht.committable,
    by rw [h.version_eq,h.snapshotVersion_eq]; exact ht.snapshot⟩

end SameVersion

/-- The next version, reached from `t`. -/
structure Advances (t t' : MultiTree) : Prop where
  initialVersion : t'.initialVersion = t.initialVersion
  metadata : t'.metadata = t.metadata
  version : t'.version = nextVersion t.version t.initialVersion

theorem advances_saveVersion (t : MultiTree) (update : Bool) :
    Advances t (t.saveVersion update).1 := by
  unfold saveVersion
  simp only
  split
  · exact ⟨rfl,rfl,rfl⟩
  · cases update <;> exact ⟨rfl,rfl,rfl⟩

theorem saveVersion_ok_version {update : Bool} {v : ℕ} (h : t.saveVersion update = (t',.ok v)) :
    t'.version = v := by
  have hv : v = nextVersion t.version t.initialVersion := by
    unfold saveVersion at h
    simp only at h
    split at h
    · cases h
    · cases h
      rfl
  have ha := advances_saveVersion t update
  rw [h] at ha
  rw [ha.version,hv]

namespace Advances
variable (h : Advances t t')
include h

theorem sane (ht : t.Sane) : t'.Sane := by
  have hlt := lt_nextVersion t.version t.initialVersion
  refine ⟨?_,?_⟩
  · rw [h.version,h.initialVersion]
    exact ht.committable.next
  · rw [snapshotVersion,h.metadata,h.version]
    exact ht.snapshot.trans hlt.le

theorem snapshotVersion_lt (ht : t.Sane) : t'.snapshotVersion < t'.version := by
  rw [snapshotVersion,h.metadata,h.version]
  exact ht.snapshot.trans_lt (lt_nextVersion ..)

theorem position_eq (ht : t.Sane) : t'.position = t.position+1 := by
  rw [position,h.version,h.initialVersion,entriesAt_nextVersion ht.committable]
  rfl

end Advances

theorem advances_replay {entry : WALEntry} (h : t.replay entry = .ok t') : Advances t t' := by
  have hs := sameVersion_applyWALEntry t entry
  unfold replay at h
  split at h
  · cases h
  · rename_i t₁ he
    rw [he] at hs
    have ha := advances_saveVersion t₁ false
    split at h
    · cases h
    · rename_i hv
      cases h
      rw [hv] at ha
      exact ⟨ha.initialVersion.trans hs.initialVersion,ha.metadata.trans hs.metadata,
        by rw [ha.version,hs.version_eq,hs.initialVersion]⟩

/-- The versions after a catch-up that started at `t` and passed `n` entries. -/
structure CaughtUp (t t' : MultiTree) (n : ℕ) : Prop where
  initialVersion : t'.initialVersion = t.initialVersion
  metadata : t'.metadata = t.metadata
  version_le : t.version ≤ t'.version
  sane : t'.Sane
  position : t'.position = t.position+n

theorem caughtUp_replayFrom {n : ℕ} (ht : t.Sane) (h : replayFrom wal t i n = .ok t') :
    CaughtUp t t' n := by
  induction n generalizing t i with
  | zero =>
    cases h
    exact ⟨rfl,rfl,le_rfl,ht,rfl⟩
  | succ n ih =>
    unfold replayFrom at h
    split at h
    · cases h
    · split at h
      · cases h
      · rename_i t₁ hr
        have ha := advances_replay hr
        have hc := ih (ha.sane ht) h
        have hlt : t.version ≤ t₁.version := by
          rw [ha.version]
          exact (lt_nextVersion ..).le
        refine ⟨hc.initialVersion.trans ha.initialVersion,hc.metadata.trans ha.metadata,
          hlt.trans hc.version_le,hc.sane,?_⟩
        rw [hc.position,ha.position_eq ht]
        omega

theorem sane_updateCommitInfo (ht : t.Sane) : t.updateCommitInfo.Sane :=
  ⟨ht.committable,ht.snapshot⟩

def endIndex (t : MultiTree) (wal : IndexedLog WALEntry) (endVersion : ℕ) : ℕ :=
  if endVersion = 0 then wal.lastIndex else walIndex endVersion t.initialVersion

theorem catchupWAL_eq_ok {endVersion : ℕ} (ht : t.Sane) : t.catchupWAL wal endVersion = .ok t' ↔
      (wal.lastIndex ≤ t.position ∧ t' = t) ∨
      (t.position < wal.lastIndex ∧ t.position < t.endIndex wal endVersion ∧
        ∃ t₁, replayFrom wal t (t.position+1)
          (min (t.endIndex wal endVersion) wal.lastIndex-t.position) = .ok t₁ ∧
          t' = t₁.updateCommitInfo) := by
  have hfirst : walIndex (nextVersion t.version t.initialVersion) t.initialVersion = t.position+1 :=
    walIndex_nextVersion ht.committable
  unfold catchupWAL
  simp only [hfirst]
  rw [← endIndex]
  by_cases hlast : wal.lastIndex ≤ t.position
  · rw [if_pos (by omega)]
    simp [hlast,not_lt.mpr hlast,eq_comm]
  · rw [if_neg (by omega)]
    by_cases hend : t.endIndex wal endVersion ≤ t.position
    · rw [if_pos (by omega)]
      simp [hlast,not_lt.mpr hend]
    · rw [if_neg (by omega),Nat.add_sub_add_right]
      cases replayFrom wal t (t.position+1)
          (min (t.endIndex wal endVersion) wal.lastIndex-t.position) with
      | error e => simp [hlast]
      | ok t₁ => simp [hlast,not_le.mp hlast,not_le.mp hend,eq_comm]

theorem caughtUp_catchupWAL {endVersion : ℕ} (ht : t.Sane)
    (h : t.catchupWAL wal endVersion = .ok t') :
    ∃ n, CaughtUp t t' n ∧ (endVersion = 0 → t'.position = max t.position wal.lastIndex) := by
  obtain ⟨hlast,rfl⟩ | ⟨hlast,hend,t₁,hr,rfl⟩ := (catchupWAL_eq_ok ht).mp h
  · exact ⟨0,⟨rfl,rfl,le_rfl,ht,rfl⟩,fun _ => by omega⟩
  · have hc := caughtUp_replayFrom ht hr
    refine ⟨_,⟨hc.initialVersion,hc.metadata,hc.version_le,sane_updateCommitInfo hc.sane,
      hc.position⟩,fun h0 => ?_⟩
    change t₁.position = _
    rw [hc.position,endIndex,if_pos h0]
    omega

theorem inRange_of_replayFrom {n : ℕ} (h : replayFrom wal t i n = .ok t') {k : ℕ} (hi : i ≤ k)
    (hk : k < i+n) : wal.InRange k := by
  induction n generalizing t i with
  | zero => omega
  | succ n ih =>
    unfold replayFrom at h
    split at h
    · cases h
    · rename_i hread
      split at h
      · cases h
      · by_cases hik : k = i
        · subst hik
          exact IndexedLog.inRange_of_read hread
        · exact ih h (by omega) (by omega)

theorem mem_swapDelete {e : NamedTree} (h : e ∈ swapDelete trees i) : e ∈ trees := by
  unfold swapDelete at h
  split at h
  · exact h
  · rename_i last hlast
    rcases List.mem_or_eq_of_mem_set (List.mem_of_mem_dropLast h) with he | rfl
    · exact he
    · exact List.mem_of_getLast? hlast

theorem mem_applyUpgrade {next : UInt32} {trees' : List NamedTree} {u : TreeNameUpgrade}
    (h : applyUpgrade next trees u = .ok trees') {e : NamedTree} (he : e ∈ trees') :
    e.tree = .newWithInitialVersion next ∨ ∃ e' ∈ trees, e'.tree = e.tree := by
  unfold applyUpgrade at h
  split at h
  · split at h <;> cases h
    exact .inr ⟨e,mem_swapDelete he,rfl⟩
  · split at h
    · split at h <;> cases h
      rename_i i _
      obtain ⟨k,hk,rfl⟩ := List.getElem_of_mem he
      rw [List.length_modify] at hk
      rw [List.getElem_modify]
      exact .inr ⟨trees[k],List.getElem_mem hk,by split <;> rfl⟩
    · cases h
      rcases List.mem_append.mp he with he | he
      · exact .inr ⟨e,he,rfl⟩
      · rw [List.mem_singleton.mp he]
        exact .inl rfl

theorem forall_upgradeTrees {P : StoreTree → Prop} {next : UInt32}
    (hnew : P (.newWithInitialVersion next)) (us : List TreeNameUpgrade) (h : ∀ e ∈ trees, P e.tree) :
    ∀ e ∈ (upgradeTrees next trees us).1, P e.tree := by
  induction us generalizing trees with
  | nil => exact h
  | cons u us ih =>
    unfold upgradeTrees
    split
    · exact h
    · rename_i trees' hu
      refine ih fun e he => ?_
      obtain he | ⟨e',he',heq⟩ := mem_applyUpgrade hu he
      · rw [he]
        exact hnew
      · rw [← heq]
        exact h e' he'

theorem forall_applyUpgrades {P : StoreTree → Prop} {t : MultiTree} {us : List TreeNameUpgrade}
    (hnew : P (.newWithInitialVersion (UInt32.ofNat (nextVersion t.version t.initialVersion))))
    (h : ∀ e ∈ t.trees, P e.tree) : ∀ e ∈ (t.applyUpgrades us).1.trees, P e.tree := by
  have hall := forall_upgradeTrees hnew us h
  unfold applyUpgrades
  split
  · exact h
  · simp only
    split <;> rename_i hu <;> rw [hu] at hall
    · exact hall
    · intro e he
      exact hall e ((List.mem_insertionSort _).mp he)

end MultiTree

end Memiavl
