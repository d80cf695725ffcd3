import Memiavl.Disk
import Memiavl.AsyncCommit
import Memiavl.Library.Transition

/-! `DB`: the calls of its user, the goroutine that writes the log, the goroutine that
rewrites a snapshot and the one that prunes old snapshots, as one system whose actions are
single steps of one of them. A call that can block is split where it can. The mutex of the
database keeps two calls from running at the same time. -/
namespace Memiavl

def errReadOnly : String := "db is read-only"

def joinErrors : Option String → Option String → Option String
  | none,b => b
  | a,none => a
  | some a,some b => some (a ++ "\n" ++ b)

structure Options where
  createIfMissing : Bool := false
  initialVersion : UInt32 := 0
  readOnly : Bool := false
  initialStores : List Bytes := []
  snapshotKeepRecent : ℕ := 0
  snapshotInterval : ℕ := 0
  targetVersion : UInt32 := 0
  asyncCommitBuffer : ℤ := 0
  loadForOverwriting : Bool := false
  deriving DecidableEq

namespace Options

def validate (o : Options) : Option String :=
  if o.readOnly && o.createIfMissing then some "can't create db in read-only mode"
  else if o.readOnly && o.loadForOverwriting then some "can't rollback db in read-only mode"
  else none

def interval (o : Options) : ℕ := if o.snapshotInterval = 0 then 1000 else o.snapshotInterval

end Options

/-- Where the goroutine of `rewriteSnapshotBackground` stands. -/
inductive RewriteStage
  | writing
  | renaming
  | linking
  | switching
  | loading
  | catching (t : MultiTree)
  /-- At the send of its result. -/
  | sending (result : Except String MultiTree)
  /-- Has returned without a result and closed the channel. -/
  | finished
  deriving DecidableEq

/-- `snapshotRewriteChan` with the goroutine that sends on it. -/
structure Rewriter where
  cloned : MultiTree
  stage : RewriteStage := .writing
  deriving DecidableEq

/-- Where the goroutine of `pruneSnapshots` stands. -/
inductive PruneStage
  | starting
  | removing (versions : List ℕ)
  deriving DecidableEq

structure Pruner where
  keepRecent : ℕ
  stage : PruneStage := .starting
  deriving DecidableEq

/-- Where the call that holds the mutex stands. -/
inductive Phase
  | idle
  /-- `Commit` at the send on `walChan`. -/
  | sending (v : ℕ) (entry : WalEntry)
  /-- `Commit` at a synchronous write. -/
  | writing (v : ℕ) (entry : WalEntry)
  | checkAsyncCommit (v : ℕ)
  | checkRewrite (v : ℕ) (err : Option String)
  /-- `Commit` in the loop that waits for the log, with the trees it is going to switch to. -/
  | waiting (v : ℕ) (err : Option String) (t : MultiTree)
  /-- `Commit` at the lock of `pruneSnapshots`. -/
  | pruning (v : ℕ) (err : Option String)
  /-- `WaitAsyncCommit` at the receive from `walQuit`. -/
  | waitQuit
  /-- `Close` at the receive from `walQuit`. -/
  | closeQuit
  /-- `Close` at the receive from `snapshotRewriteChan`. -/
  | closeRewrite (err : Option String)
  deriving DecidableEq

structure DB where
  opts : Options
  mtree : MultiTree
  pendingLog : WALEntry := {}
  walChan : Option AsyncCommit := none
  rewriter : Option Rewriter := none
  phase : Phase := .idle
  deriving DecidableEq

namespace DB

def applyUpgrades (db : DB) (upgrades : List TreeNameUpgrade) : DB × Option String :=
  if db.opts.readOnly then (db,some errReadOnly)
  else
    match db.mtree.applyUpgrades upgrades with
    | (mtree,some e) => ({ db with mtree },some e)
    | (mtree,none) =>
      ({ db with mtree, pendingLog :=
          { db.pendingLog with upgrades := db.pendingLog.upgrades ++ upgrades } },none)

/-- Merges pairs into the first pending change set of that name, or adds one in its place. -/
def mergePending (name : Bytes) (changeSet : ChangeSet) (pending : List NamedChangeSet) :
    List NamedChangeSet :=
  match pending.findIdx? fun cs => cs.name = name with
  | some i => pending.modify i fun cs => { cs with changeset := cs.changeset ++ changeSet }
  | none => (pending ++ [NamedChangeSet.mk name changeSet]).insertionSort fun a b => a.name ≤ b.name

def applyChangeSet (db : DB) (name : Bytes) (changeSet : ChangeSet) : DB × Option String :=
  if changeSet = [] then (db,none)
  else if db.opts.readOnly then (db,some errReadOnly)
  else
    let pendingLog := { db.pendingLog with
      changesets := mergePending name changeSet db.pendingLog.changesets }
    let p := db.mtree.applyChangeSet name changeSet
    ({ db with pendingLog, mtree := p.1 },p.2)

/-- The slow path of `ApplyChangeSets`. -/
def mergeChangeSets (db : DB) : List NamedChangeSet → DB × Option String
  | [] => (db,none)
  | cs::css =>
    match db.applyChangeSet cs.name cs.changeset with
    | (db,some e) => (db,some e)
    | (db,none) => db.mergeChangeSets css

def applyChangeSets (db : DB) (changeSets : List NamedChangeSet) : DB × Option String :=
  if changeSets = [] then (db,none)
  else if db.opts.readOnly then (db,some errReadOnly)
  else if db.pendingLog.changesets = [] then
    let p := db.mtree.applyChangeSets changeSets
    ({ db with pendingLog := { db.pendingLog with changesets := changeSets }, mtree := p.1 },p.2)
  else db.mergeChangeSets changeSets

/-- `SetInitialVersion`, which also rewrites the empty snapshot. -/
def setInitialVersion (db : DB) (d : Disk) (initialVersion : ℤ) : (DB × Disk) × Option String :=
  if db.opts.readOnly then ((db,d),some errReadOnly)
  else if db.mtree.version > 0 then
    ((db,d),some "initial version can only be set before any commit")
  else
    match db.mtree.setInitialVersion initialVersion with
    | (mtree,some e) => (({ db with mtree },d),some e)
    | (mtree,none) =>
      let p := d.initEmptyDB mtree.initialVersion
      (({ db with mtree },p.1),p.2)

/-- The directories between the steps of `SetInitialVersion`. -/
def initialVersionPoints (db : DB) (d : Disk) (initialVersion : ℤ) : List Disk :=
  if db.opts.readOnly ∨ db.mtree.version > 0 then []
  else
    match db.mtree.setInitialVersion initialVersion with
    | (_,some _) => []
    | (mtree,none) => d.initPoints mtree.initialVersion

def committedVersion (db : DB) (wal : IndexedLog WALEntry) : ℕ :=
  if wal.lastIndex = 0 then db.mtree.snapshotVersion
  else walVersion wal.lastIndex db.mtree.initialVersion

/-- `WriteSnapshot` to any directory, which has these trees so far. -/
def writeSnapshot (db : DB) (old : List (Bytes × TreeFiles)) : SnapshotDir :=
  db.mtree.writeSnapshot old

/-- `rewriteSnapshotBackground`. The goroutine works on a copy of the trees, which later
changes do not reach when nothing is pending (`World.copy_isolation`). -/
def rewriteSnapshotBackground (db : DB) : DB × Option String :=
  match db.rewriter with
  | some _ => (db,some "there's another ongoing snapshot rewriting process")
  | none => ({ db with rewriter := some { cloned := db.mtree } },none)

/-- `rewriteIfApplicable`; an error is only logged. -/
def rewriteIfApplicable (db : DB) (height : ℕ) : DB :=
  if height % db.opts.interval ≠ 0 then db else db.rewriteSnapshotBackground.1

/-- `Load` up to the choice of a snapshot. -/
def prepare (o : Options) (d : Disk) : Disk × Option String :=
  match o.validate with
  | some e => (d,some s!"invalid options: {e}")
  | none =>
    match if o.createIfMissing then d.createDBIfNotExist o.initialVersion else (d,none) with
    | (d,some e) => (d,some s!"fail to load db: {e}")
    | (d,none) => (if o.readOnly then d else d.removeTmpDirs,none)

/-- The part of `Load` for `LoadForOverwriting`, with the snapshot that was chosen. -/
def rollback (o : Options) (d : Disk) (v : ℕ) (initialVersion : UInt32) : Disk × Option String :=
  if o.loadForOverwriting && 0 < o.targetVersion.toNat then
    d.overwrite o.targetVersion.toNat v initialVersion
  else (d,none)

/-- The end of `Load`: a database without a version gets its initial stores. -/
def openWith (o : Options) (mtree : MultiTree) : Except String DB :=
  let db : DB := { opts := o, mtree }
  if !o.readOnly ∧ mtree.version = 0 ∧ o.initialStores ≠ [] then
    match db.applyUpgrades (o.initialStores.map fun name => { name }) with
    | (_,some e) => .error e
    | (db,none) => .ok db
  else .ok db

/-- `Load`, with the directory as it leaves it. -/
def load (o : Options) (d : Disk) : Except String DB × Disk :=
  match prepare o d with
  | (d,some e) => (.error e,d)
  | (d,none) =>
    match d.loadTarget o.targetVersion.toNat with
    | .error e => (.error e,d)
    | .ok (v,mtree) =>
      match rollback o d v mtree.initialVersion with
      | (d,some e) => (.error e,d)
      | (d,none) => (openWith o mtree,d)

/-- The directories between the steps of `Load`. -/
def loadPoints (o : Options) (d : Disk) : List Disk :=
  (if o.validate = none ∧ o.createIfMissing then d.createPoints o.initialVersion else []) ++
    match prepare o d with
    | (_,some _) => []
    | (d,none) => d ::
      match d.loadTarget o.targetVersion.toNat with
      | .error _ => []
      | .ok (v,mtree) =>
        if o.loadForOverwriting && 0 < o.targetVersion.toNat then
          d.overwritePoints o.targetVersion.toNat v mtree.initialVersion
        else []

end DB

inductive Call
  | applyUpgrades (upgrades : List TreeNameUpgrade)
  | applyChangeSets (changeSets : List NamedChangeSet)
  | applyChangeSet (name : Bytes) (changeSet : ChangeSet)
  | setInitialVersion (initialVersion : ℤ)
  | commit
  | rewriteSnapshot
  | rewriteSnapshotBackground
  | waitAsyncCommit
  | close
  deriving DecidableEq

inductive Reply
  | done
  | version (v : ℕ)
  | error (err : String)
  deriving DecidableEq

def Reply.ofError : Option String → Reply
  | none => .done
  | some e => .error e

/-- What a user sees of the trees. -/
structure View where
  trees : List NamedTree := []
  lastCommitInfo : CommitInfo := {}
  deriving DecidableEq

def MultiTree.view (t : MultiTree) : View := ⟨t.trees,t.lastCommitInfo⟩

inductive Event
  /-- `Commit` has saved a version and hands its entry to the log. -/
  | committed (entry : WalEntry)
  | returned (call : Call) (reply : Reply) (view : View)
  deriving DecidableEq

structure System where
  disk : Disk := {}
  /-- The open database. -/
  db : Option DB := none
  pruner : Option Pruner := none
  trace : List Event := []
  /-- A goroutine has panicked, which ended the process. -/
  panicked : Bool := false
  deriving DecidableEq

/-- What changes the directory in several steps, although it is one action here. -/
inductive Work
  | load (o : Options)
  | setInitialVersion (initialVersion : ℤ)
  | rewriteSnapshot
  deriving DecidableEq

inductive Act
  | load (o : Options)
  | call (c : Call)
  /-- The call that holds the mutex goes on; a synchronous write fails after `k` entries with
  `some k`. -/
  | proceed (failure : Option ℕ)
  | write (failure : Option ℕ)
  /-- A step of the goroutine that rewrites a snapshot; with `false` the writing is cancelled
  or fails. -/
  | rewrite (ok : Bool)
  | prune
  /-- The process ends and only the first `keep` entries of the log are on disk. -/
  | crash (keep : ℕ)
  /-- The process ends during some work, after its step `n` on the directory. -/
  | interrupt (w : Work) (n keep : ℕ)
  deriving DecidableEq

namespace System

/-- The call returns and gives the mutex back. -/
def ret (s : System) (db : DB) (c : Call) (r : Reply) : System :=
  { s with
    db := some { db with phase := .idle }
    trace := s.trace ++ [.returned c r db.mtree.view] }

def put (s : System) (db : DB) : System := { s with db := some db }

def finishCommit (s : System) (db : DB) (v : ℕ) : Option String → System
  | some e => s.ret db .commit (.error e)
  | none => s.ret (db.rewriteIfApplicable v) .commit (.version v)

/-- `Commit` up to the first place where it can block. -/
def commit (s : System) (db : DB) : System :=
  if db.opts.readOnly then s.ret db .commit (.error errReadOnly)
  else
    match db.mtree.saveVersion true with
    | (mtree,.error e) => s.ret { db with mtree } .commit (.error e)
    | (mtree,.ok v) =>
      let entry : WalEntry := ⟨walIndex v mtree.initialVersion,db.pendingLog⟩
      let s := { s with trace := s.trace ++ [Event.committed entry] }
      if 0 ≤ db.opts.asyncCommitBuffer then
        s.put { db with
          mtree
          walChan := some (db.walChan.getD { size := db.opts.asyncCommitBuffer.toNat })
          phase := .sending v entry }
      else s.put { db with mtree, phase := .writing v entry }

/-- `Close` after the log and the rewriting goroutine have ended. -/
def finishClose (s : System) (err : Option String) : System :=
  { s with db := none, trace := s.trace ++ [.returned .close (.ofError err) {}] }

/-- `Close` after `waitAsyncCommit`. -/
def closeRewrite (s : System) (db : DB) (err : Option String) : System :=
  match db.rewriter with
  | none => s.finishClose err
  | some _ => s.put { db with phase := .closeRewrite err }

def startCall (s : System) (db : DB) : Call → System
  | .applyUpgrades us =>
    let p := db.applyUpgrades us
    s.ret p.1 (.applyUpgrades us) (.ofError p.2)
  | .applyChangeSets css =>
    let p := db.applyChangeSets css
    s.ret p.1 (.applyChangeSets css) (.ofError p.2)
  | .applyChangeSet name cs =>
    let p := db.applyChangeSet name cs
    s.ret p.1 (.applyChangeSet name cs) (.ofError p.2)
  | .setInitialVersion iv =>
    let p := db.setInitialVersion s.disk iv
    { s with disk := p.1.2 }.ret p.1.1 (.setInitialVersion iv) (.ofError p.2)
  | .commit => s.commit db
  | .rewriteSnapshot =>
    if db.opts.readOnly then s.ret db .rewriteSnapshot (.error errReadOnly)
    else
      let p := s.disk.rewriteSnapshot db.mtree
      { s with disk := p.1 }.ret db .rewriteSnapshot (.ofError p.2)
  | .rewriteSnapshotBackground =>
    if db.opts.readOnly then s.ret db .rewriteSnapshotBackground (.error errReadOnly)
    else
      let p := db.rewriteSnapshotBackground
      s.ret p.1 .rewriteSnapshotBackground (.ofError p.2)
  | .waitAsyncCommit =>
    match db.walChan with
    | none => s.ret db .waitAsyncCommit .done
    | some c => s.put { db with walChan := some { c with closed := true }, phase := .waitQuit }
  | .close =>
    match db.walChan with
    | none => s.closeRewrite db none
    | some c => s.put { db with walChan := some { c with closed := true }, phase := .closeQuit }

/-- What a receive from `walQuit` gives: nothing as long as it blocks, an error that the
goroutine was about to send, or no error from the closed channel. -/
def recvQuit (c : AsyncCommit) : Option (Option String) :=
  match c.writer with
  | .failing e => some (some e)
  | .quit => some none
  | _ => none

/-- `checkBackgroundSnapshotRewrite` up to the wait loop. -/
def checkRewrite (s : System) (db : DB) (v : ℕ) (err : Option String) : System :=
  match db.rewriter with
  | none => s.finishCommit db v err
  | some r =>
    match r.stage with
    | .sending (.error e) => s.finishCommit { db with rewriter := none } v
        (joinErrors err (some s!"background snapshot rewriting failed: {e}"))
    | .sending (.ok t) => s.put { db with rewriter := none, phase := .waiting v err t }
    | .finished => s.finishCommit { db with rewriter := none } v err
    | _ => s.finishCommit db v err

def switch (s : System) (db : DB) (v : ℕ) (err : Option String) (t : MultiTree) : System :=
  match t.catchupWAL s.disk.wal 0 with
  | .error e => s.finishCommit db v (joinErrors err (some s!"catchup failed: {e}"))
  | .ok mtree =>
    match mtree.applyWALEntry db.pendingLog with
    | (mtree,some e) => s.finishCommit { db with mtree } v
        (joinErrors err (some s!"switch multitree failed: {e}"))
    | (mtree,none) => s.put { db with mtree, phase := .pruning v err }

/-- The call that holds the mutex goes on from where it stands, if it is not blocked. -/
def proceed (s : System) (db : DB) (failure : Option ℕ) : Option System :=
  match db.phase with
  | .idle => none
  | .sending v entry => do
    let c ← db.walChan
    let c ← c.send entry
    some (s.put { db with walChan := some c, pendingLog := {}, phase := .checkAsyncCommit v })
  | .writing v entry =>
    let batch := writeEntry s.disk.wal.lastIndex [] entry
    match failure with
    | some k =>
      let wal := (s.disk.wal.writeBatch (batch.take k)).getD s.disk.wal
      some ({ s with disk := { s.disk with wal } }.ret db .commit (.error "input/output error"))
    | none =>
      match s.disk.wal.writeBatch batch with
      | none => some (s.ret db .commit (.error "out of order"))
      | some wal =>
        some ({ s with disk := { s.disk with wal } }.put
          { db with pendingLog := {}, phase := .checkAsyncCommit v })
  | .checkAsyncCommit v =>
    match db.walChan.bind recvQuit with
    | none => some (s.put { db with phase := .checkRewrite v none })
    | some err =>
      let cause := err.getD "%!w(<nil>)"
      let msg := s!"async wal writing goroutine quit unexpectedly: {cause}"
      some (s.put { db with
        walChan := db.walChan.map fun c => { c with writer := .quit }
        phase := .checkRewrite v (some msg) })
  | .checkRewrite v err => some (s.checkRewrite db v err)
  | .waiting v err t =>
    if db.committedVersion s.disk.wal = db.mtree.version then some (s.switch db v err t) else none
  | .pruning v err =>
    match s.pruner with
    | some _ => none
    | none => some ({ s with
        pruner := some { keepRecent := db.opts.snapshotKeepRecent } }.finishCommit db v err)
  | .waitQuit => do
    let c ← db.walChan
    let err ← recvQuit c
    some (s.ret { db with walChan := none } .waitAsyncCommit (.ofError err))
  | .closeQuit => do
    let c ← db.walChan
    let err ← recvQuit c
    some (s.closeRewrite { db with walChan := none } err)
  | .closeRewrite err => do
    let r ← db.rewriter
    match r.stage with
    | .sending _ | .finished => some (s.finishClose err)
    | _ => none

/-- The next stage after a step on the directory; a failed step ends the goroutine without a
result. -/
def afterStep (d : Disk) (r : Rewriter) (d' : Option Disk) (stage : RewriteStage) :
    Disk × Rewriter :=
  match d' with
  | none => (d,{ r with stage := .finished })
  | some d => (d,{ r with stage })

def rewriteStep (d : Disk) (r : Rewriter) (ok : Bool) : Option (Disk × Rewriter) :=
  match r.stage with
  | .writing =>
    if ok then some (d.writeTmp r.cloned,{ r with stage := .renaming })
    else some (d.dropTmp r.cloned.version,{ r with stage := .finished })
  | .renaming => some (afterStep d r (d.renameTmp r.cloned.version) .linking)
  | .linking => some (afterStep d r (d.linkTmp r.cloned.version) .switching)
  | .switching => some (afterStep d r d.renameLink .loading)
  | .loading =>
    match d.loadCurrent with
    | .error e => some (d,{ r with stage := .sending (.error e) })
    | .ok t => some (d,{ r with stage := .catching t })
  | .catching t => some (d,{ r with stage := .sending (t.catchupWAL d.wal 0) })
  | .sending _ | .finished => none

/-- A step of the goroutine that prunes snapshots; it ends with the truncation of the log.
After `Close` there is no log left, and the goroutine panics. -/
def pruneStep (s : System) (p : Pruner) : System :=
  match p.stage with
  | .starting =>
    match s.disk.currentVersion with
    | .error _ => { s with pruner := none }
    | .ok current =>
      match Disk.toPrune current p.keepRecent s.disk.versions.reverse with
      | .error _ => { s with pruner := none }
      | .ok vs => { s with pruner := some { p with stage := .removing vs } }
  | .removing (v::vs) =>
    { s with disk := s.disk.removeSnapshot v, pruner := some { p with stage := .removing vs } }
  | .removing [] =>
    match s.db with
    | none => { s with pruner := none, panicked := true }
    | some db => { s with disk := s.disk.truncateWAL db.mtree.initialVersion, pruner := none }

/-- The process ends and leaves a directory, with the first `keep` entries of its log. -/
def endsWith (s : System) (d : Disk) (keep : ℕ) : System :=
  { s with disk := { d with wal := d.wal.cut keep }, db := none, pruner := none }

/-- The directories between the steps of some work, if it can start. -/
def points (s : System) : Work → List Disk
  | .load o =>
    match s.db,s.pruner with
    | none,none => DB.loadPoints o s.disk
    | _,_ => []
  | .setInitialVersion iv =>
    match s.db with
    | some db => if db.phase = .idle then db.initialVersionPoints s.disk iv else []
    | none => []
  | .rewriteSnapshot =>
    match s.db with
    | some db =>
      if db.phase = .idle ∧ db.opts.readOnly = false then s.disk.rewritePoints db.mtree else []
    | none => []

def step (s : System) : Act → Option System
  | .load o =>
    match s.db,s.pruner with
    | none,none =>
      match DB.load o s.disk with
      | (.error _,disk) => some { s with disk }
      | (.ok db,disk) => some { s with disk, db := some db }
    | _,_ => none
  | .call c => do
    let db ← s.db
    if db.phase = .idle then some (s.startCall db c) else none
  | .proceed failure => do
    let db ← s.db
    s.proceed db failure
  | .write failure => do
    let db ← s.db
    let c ← db.walChan
    let (c,wal) ← c.step s.disk.wal failure
    some { s with disk := { s.disk with wal }, db := some { db with walChan := some c } }
  | .rewrite ok => do
    let db ← s.db
    let r ← db.rewriter
    let (disk,r) ← rewriteStep s.disk r ok
    some { s with disk, db := some { db with rewriter := some r } }
  | .prune => do
    let p ← s.pruner
    some (s.pruneStep p)
  | .crash keep => some (s.endsWith s.disk keep)
  | .interrupt w n keep => (s.points w)[n]?.map fun d => s.endsWith d keep

end System
end Memiavl
