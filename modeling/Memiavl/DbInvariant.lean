import Memiavl.DbSteps

/-! What holds in every state of the system, whatever calls are made, whichever steps of the
goroutines come between them, and also after failed writes and crashes: versions are sane,
and the entries on their way to the log are in the order of their indices. -/
namespace Memiavl

open MultiTree List

/-- The metadata that a sane multi-tree writes. -/
def SnapshotDir.Sane (d : SnapshotDir) : Prop :=
  d.metadata.commitInfo.version = 0 ∨
    d.metadata.initialVersion ≤ d.metadata.commitInfo.version+1

theorem sane_writeSnapshot {t : MultiTree} (ht : t.Sane) (old : List (Bytes × TreeFiles)) :
    (t.writeSnapshot old).Sane := ht.committable

theorem sane_newEmpty (iv : UInt32) : (newEmpty iv).Sane := ⟨.inl rfl,le_rfl⟩

theorem load_eq_ok {d : SnapshotDir} {t : MultiTree} (h : MultiTree.load d = .ok t) :
    t.lastCommitInfo = d.metadata.commitInfo ∧ t.metadata = d.metadata ∧
      t.initialVersion.toNat = d.metadata.initialVersion := by
  unfold MultiTree.load readMetadata at h
  split at h
  · cases h
  · split at h
    · cases h
    · rename_i hiv
      cases hl : loadTrees (d.trees.insertionSort fun a b => a.1 ≤ b.1) with
      | error e =>
        rw [hl] at h
        cases h
      | ok trees =>
        rw [hl] at h
        cases h
        refine ⟨rfl,rfl,?_⟩
        rw [maxUint32] at hiv
        change (UInt32.ofNat _).toNat = _
        rw [UInt32.toNat_ofNat']
        omega

theorem SnapshotDir.Sane.load {d : SnapshotDir} (hd : d.Sane) {t : MultiTree}
    (h : MultiTree.load d = .ok t) : t.Sane := by
  obtain ⟨hi,hm,hiv⟩ := load_eq_ok h
  refine ⟨?_,?_⟩
  · rw [Committable,version,hi,hiv]
    exact hd
  · rw [snapshotVersion,version,hm,hi]

namespace Disk

variable {d d' : Disk} {v : ℕ} {t : MultiTree}

theorem mem_putDir {dir : SnapshotDir} {dirs : List (ℕ × SnapshotDir)} {p : ℕ × SnapshotDir}
    (h : p ∈ putDir v dir dirs) : p = (v,dir) ∨ p ∈ dirs := by
  rw [putDir,mem_orderedInsert] at h
  exact h.imp_right mem_of_mem_filter

theorem mem_of_lookup {dirs : List (ℕ × SnapshotDir)} {dir : SnapshotDir}
    (h : dirs.lookup v = some dir) : (v,dir) ∈ dirs := by
  induction dirs with
  | nil => cases h
  | cons p dirs ih =>
    rw [lookup_cons] at h
    split at h
    · rename_i he
      cases h
      rw [eq_of_beq he]
      exact mem_cons_self
    · exact mem_cons_of_mem _ (ih h)

/-- The directory apart from the two links. -/
structure SameDirs (d d' : Disk) : Prop where
  snapshots : d'.snapshots = d.snapshots
  tmpDirs : d'.tmpDirs = d.tmpDirs
  wal : d'.wal = d.wal

/-- Between its steps `LoadForOverwriting` has created the temporary link, or it has set the link
and perhaps cut the log and removed snapshots. -/
theorem mem_overwritePoints {targetVersion : ℕ} {iv : UInt32}
    (h : d' ∈ d.overwritePoints targetVersion v iv) : d.linkTmp v = some d' ∨
      ∃ d₁ wal snapshots, snapshots ⊆ d₁.snapshots ∧
        (d₁ = d ∨ d.updateCurrentSymlink v = (d₁,none)) ∧ d' = { d₁ with wal, snapshots } := by
  unfold overwritePoints at h
  split at h
  · cases h
  rename_i current _
  rcases mem_append.mp h with h | h
  · split at h
    · cases h
    · exact .inl (Option.mem_toList.mp h)
  split at h
  · cases h
  rename_i d₁ he
  have hd₁ : d₁ = d ∨ d.updateCurrentSymlink v = (d₁,none) := by
    split at he
    · cases he
      exact .inl rfl
    · exact .inr he
  rcases mem_cons.mp h with rfl | h
  · exact .inr ⟨_,_,_,List.Subset.refl _,hd₁,rfl⟩
  split at h
  · cases h
  rcases mem_cons.mp h with rfl | h
  · exact .inr ⟨_,_,_,List.Subset.refl _,hd₁,rfl⟩
  split at h
  · cases h
  · obtain ⟨n,-,rfl⟩ := List.mem_map.mp h
    exact .inr ⟨_,_,_,take_subset ..,hd₁,rfl⟩

theorem sameDirs_linkTmp (h : d.linkTmp v = some d') : SameDirs d d' := by
  unfold linkTmp at h
  split at h
  · cases h
  · cases h
    exact ⟨rfl,rfl,rfl⟩

theorem sameDirs_renameLink (h : d.renameLink = some d') : SameDirs d d' := by
  unfold renameLink at h
  split at h
  · cases h
  · cases h
    exact ⟨rfl,rfl,rfl⟩

theorem sameDirs_updateCurrentSymlink (d : Disk) (v : ℕ) :
    SameDirs d (d.updateCurrentSymlink v).1 := by
  unfold updateCurrentSymlink
  split
  · exact ⟨rfl,rfl,rfl⟩
  · rename_i hl
    have h := sameDirs_linkTmp hl
    split
    · exact h
    · rename_i hr
      have hh := sameDirs_renameLink hr
      exact ⟨hh.snapshots.trans h.snapshots,hh.tmpDirs.trans h.tmpDirs,hh.wal.trans h.wal⟩

theorem renameTmp_eq_some : d.renameTmp v = some d' ↔ ∃ dir, d.tmpDirs.lookup v = some dir ∧
    v ∉ d.versions ∧
    d' = { d with snapshots := putDir v dir d.snapshots, tmpDirs := removeDir v d.tmpDirs } := by
  unfold renameTmp
  cases d.tmpDirs.lookup v with
  | none => simp
  | some dir =>
    by_cases hv : v ∈ d.versions
    · simp [hv]
    · simp [hv,eq_comm]

theorem wal_renameTmp (h : d.renameTmp v = some d') : d'.wal = d.wal := by
  obtain ⟨dir,-,-,rfl⟩ := renameTmp_eq_some.mp h
  rfl

theorem wal_rewriteSnapshot (d : Disk) (t : MultiTree) : (d.rewriteSnapshot t).1.wal = d.wal := by
  unfold rewriteSnapshot
  simp only
  split
  · rfl
  · rename_i d₁ hr
    exact (sameDirs_updateCurrentSymlink d₁ t.version).wal.trans ((wal_renameTmp hr).trans rfl)

theorem wal_removeSnapshot (d : Disk) (v : ℕ) : (d.removeSnapshot v).wal = d.wal := by
  unfold removeSnapshot
  split <;> rfl

theorem wal_initEmptyDB (d : Disk) (iv : UInt32) : (d.initEmptyDB iv).1.wal = d.wal :=
  (sameDirs_updateCurrentSymlink _ 0).wal

theorem overwrite_dirs (d : Disk) (targetVersion v : ℕ) (iv : UInt32) :
    (d.overwrite targetVersion v iv).1.tmpDirs = d.tmpDirs ∧
      ((d.overwrite targetVersion v iv).1.snapshots = d.snapshots ∨
        (d.overwrite targetVersion v iv).1.snapshots =
          d.snapshots.filter fun p => p.1 ≤ targetVersion) := by
  have hlink : ∀ w, SameDirs d (if v = w then (d,none) else d.updateCurrentSymlink v).1 := by
    intro w
    split
    · exact ⟨rfl,rfl,rfl⟩
    · exact sameDirs_updateCurrentSymlink d v
  unfold Disk.overwrite
  split
  · exact ⟨rfl,.inl rfl⟩
  · rename_i w _
    have hl := hlink w
    split <;> rename_i he <;> rw [he] at hl
    · exact ⟨hl.tmpDirs,.inl hl.snapshots⟩
    · split
      · exact ⟨hl.tmpDirs,.inl hl.snapshots⟩
      · simp only
        split
        · exact ⟨hl.tmpDirs,.inl hl.snapshots⟩
        · exact ⟨hl.tmpDirs,.inr (by rw [hl.snapshots])⟩

/-- All snapshots have the property `P`, and all temporary directories the property `Q`. -/
structure Dirs (P Q : ℕ × SnapshotDir → Prop) (d : Disk) : Prop where
  snapshots : ∀ p ∈ d.snapshots, P p
  tmpDirs : ∀ p ∈ d.tmpDirs, Q p

namespace Dirs
variable {P Q : ℕ × SnapshotDir → Prop} (hd : d.Dirs P Q)
include hd

theorem mono (hs : d'.snapshots ⊆ d.snapshots) (ht : d'.tmpDirs ⊆ d.tmpDirs) : d'.Dirs P Q :=
  ⟨fun p hp => hd.snapshots p (hs hp),fun p hp => hd.tmpDirs p (ht hp)⟩

theorem same (h : SameDirs d d') : d'.Dirs P Q :=
  ⟨h.snapshots ▸ hd.snapshots,h.tmpDirs ▸ hd.tmpDirs⟩

theorem dropTmp (v : ℕ) : (d.dropTmp v).Dirs P Q :=
  hd.mono (List.Subset.refl _) (filter_subset_self _)

theorem removeSnapshot (v : ℕ) : (d.removeSnapshot v).Dirs P Q := by
  unfold Disk.removeSnapshot
  split
  · exact hd
  · exact hd.mono (filter_subset_self _) (List.Subset.refl _)

theorem truncateWAL (iv : UInt32) : (d.truncateWAL iv).Dirs P Q := by
  unfold Disk.truncateWAL
  simp only
  split <;> exact ⟨hd.snapshots,hd.tmpDirs⟩

theorem writeTmp (h : Q (t.version,t.writeSnapshot (oldTrees d.tmpDirs t.version))) :
    (d.writeTmp t).Dirs P Q := by
  refine ⟨hd.snapshots,fun p hp => ?_⟩
  rcases mem_putDir hp with rfl | hp
  · exact h
  · exact hd.tmpDirs p hp

theorem renameTmp (hQ : v ∉ d.versions → ∀ dir, Q (v,dir) → P (v,dir))
    (h : d.renameTmp v = some d') : d'.Dirs P Q := by
  obtain ⟨dir,hl,hnew,rfl⟩ := renameTmp_eq_some.mp h
  refine ⟨fun p hp => ?_,fun p hp => hd.tmpDirs p (mem_of_mem_filter hp)⟩
  rcases mem_putDir hp with rfl | hp
  · exact hQ hnew dir (hd.tmpDirs _ (mem_of_lookup hl))
  · exact hd.snapshots p hp

theorem rewriteSnapshot (hQ : t.version ∉ d.versions → ∀ dir, Q (t.version,dir) → P (t.version,dir))
    (h : Q (t.version,t.writeSnapshot (oldTrees d.tmpDirs t.version))) :
    (d.rewriteSnapshot t).1.Dirs P Q := by
  have hw := hd.writeTmp h
  unfold Disk.rewriteSnapshot
  simp only
  split
  · exact hw
  · rename_i hr
    exact (hw.renameTmp hQ hr).same (sameDirs_updateCurrentSymlink _ _)

theorem overwrite (targetVersion v : ℕ) (iv : UInt32) :
    (d.overwrite targetVersion v iv).1.Dirs P Q := by
  obtain ⟨ht,hs⟩ := overwrite_dirs d targetVersion v iv
  refine hd.mono ?_ fun p hp => ht ▸ hp
  rcases hs with hs | hs <;> rw [hs]
  · exact List.Subset.refl _
  · exact filter_subset_self _

theorem rollback (o : Options) (v : ℕ) (iv : UInt32) : (DB.rollback o d v iv).1.Dirs P Q := by
  unfold DB.rollback
  split
  · exact hd.overwrite _ v iv
  · exact hd

variable {iv : UInt32} {o : Options}

theorem writeEmpty (h : P (0,(newEmpty iv).writeSnapshot (oldTrees d.snapshots 0))) :
    (d.writeEmpty iv).Dirs P Q := by
  refine ⟨fun p hp => ?_,hd.tmpDirs⟩
  rcases mem_putDir hp with rfl | hp
  · exact h
  · exact hd.snapshots p hp

theorem initEmptyDB (h : P (0,(newEmpty iv).writeSnapshot (oldTrees d.snapshots 0))) :
    (d.initEmptyDB iv).1.Dirs P Q :=
  (hd.writeEmpty h).same (sameDirs_updateCurrentSymlink _ 0)

theorem initPoints (h : P (0,(newEmpty iv).writeSnapshot (oldTrees d.snapshots 0)))
    (hp : d' ∈ d.initPoints iv) : d'.Dirs P Q := by
  have hw := hd.writeEmpty h
  rcases mem_cons.mp hp with rfl | hp
  · exact hw
  · exact hw.same (sameDirs_linkTmp (Option.mem_toList.mp hp))

theorem createPoints (h : P (0,(newEmpty iv).writeSnapshot (oldTrees d.snapshots 0)))
    (hp : d' ∈ d.createPoints iv) : d'.Dirs P Q := by
  unfold Disk.createPoints at hp
  split at hp
  · exact hd.initPoints h hp
  · split at hp
    · cases hp
    · exact hd.initPoints h hp

theorem rewritePoints
    (hQ : t.version ∉ d.versions → ∀ dir, Q (t.version,dir) → P (t.version,dir))
    (h : Q (t.version,t.writeSnapshot (oldTrees d.tmpDirs t.version)))
    (hp : d' ∈ d.rewritePoints t) : d'.Dirs P Q := by
  have hw := hd.writeTmp h
  rcases mem_cons.mp hp with rfl | hp
  · exact hw
  split at hp
  · cases hp
  · rename_i hr
    have hren := hw.renameTmp hQ hr
    rcases mem_cons.mp hp with rfl | hp
    · exact hren
    · exact hren.same (sameDirs_linkTmp (Option.mem_toList.mp hp))

theorem overwritePoints {targetVersion : ℕ} (hp : d' ∈ d.overwritePoints targetVersion v iv) :
    d'.Dirs P Q := by
  rcases mem_overwritePoints hp with hp | ⟨d₁,wal,snapshots,hsub,hd₁,rfl⟩
  · exact hd.same (sameDirs_linkTmp hp)
  · have hlink : d₁.Dirs P Q := by
      rcases hd₁ with rfl | hd₁
      · exact hd
      · have hsame := sameDirs_updateCurrentSymlink d v
        rw [hd₁] at hsame
        exact hd.same hsame
    exact hlink.mono hsub (List.Subset.refl _)

theorem createDBIfNotExist (h : P (0,(newEmpty iv).writeSnapshot (oldTrees d.snapshots 0))) :
    (d.createDBIfNotExist iv).1.Dirs P Q := by
  unfold Disk.createDBIfNotExist
  split
  · exact hd.initEmptyDB h
  · split
    · exact hd
    · exact hd.initEmptyDB h

variable (h : P (0,(newEmpty o.initialVersion).writeSnapshot (oldTrees d.snapshots 0)))
include h

theorem prepare : (DB.prepare o d).1.Dirs P Q := by
  have hcreate : (if o.createIfMissing then d.createDBIfNotExist o.initialVersion
      else (d,none)).1.Dirs P Q := by
    split
    · exact hd.createDBIfNotExist h
    · exact hd
  unfold DB.prepare
  split
  · exact hd
  · split <;> rename_i he <;> rw [he] at hcreate
    · exact hcreate
    · simp only
      split
      · exact hcreate
      · exact hcreate.mono (List.Subset.refl _) (nil_subset _)

theorem load : (DB.load o d).2.Dirs P Q := by
  have hp := hd.prepare h
  unfold DB.load
  split <;> rename_i he <;> rw [he] at hp
  · exact hp
  · split
    · exact hp
    · rename_i v mtree _
      have hr := hp.rollback o v mtree.initialVersion
      split <;> rename_i he₂ <;> rw [he₂] at hr <;> exact hr

theorem loadPoints (hd' : d' ∈ DB.loadPoints o d) : d'.Dirs P Q := by
  have hp := hd.prepare h
  rcases mem_append.mp hd' with hd' | hd'
  · split at hd'
    · exact hd.createPoints h hd'
    · cases hd'
  split at hd'
  · cases hd'
  rename_i d₁ he
  rw [he] at hp
  rcases mem_cons.mp hd' with rfl | hd'
  · exact hp
  split at hd'
  · cases hd'
  split at hd'
  · exact hp.overwritePoints hd'
  · cases hd'

end Dirs

/-- Wherever the process ends, the directories have the properties that each step keeps. -/
theorem Dirs.points {P Q : ℕ × SnapshotDir → Prop} {s : System} (hd : s.disk.Dirs P Q)
    (h : ∀ iv, P (0,(newEmpty iv).writeSnapshot (oldTrees s.disk.snapshots 0)))
    (hQ : ∀ db ∈ s.db, db.mtree.version ∉ s.disk.versions →
      ∀ dir, Q (db.mtree.version,dir) → P (db.mtree.version,dir))
    (ht : ∀ db ∈ s.db, Q (db.mtree.version,
      db.mtree.writeSnapshot (oldTrees s.disk.tmpDirs db.mtree.version)))
    {w : Work} (hp : d ∈ s.points w) : d.Dirs P Q := by
  cases w with
  | load o =>
    simp only [System.points] at hp
    split at hp
    · exact hd.loadPoints (h _) hp
    · cases hp
  | setInitialVersion iv =>
    simp only [System.points] at hp
    split at hp
    · split at hp
      · unfold DB.initialVersionPoints at hp
        split at hp
        · cases hp
        · split at hp
          · cases hp
          · exact hd.initPoints (h _) hp
      · cases hp
    · cases hp
  | rewriteSnapshot =>
    simp only [System.points] at hp
    split at hp
    · rename_i db hdb
      split at hp
      · exact hd.rewritePoints (hQ db hdb) (ht db hdb) hp
      · cases hp
    · cases hp

/-- All snapshots and temporary directories are sane. -/
def Sane (d : Disk) : Prop := ∀ p ∈ d.snapshots ++ d.tmpDirs, p.2.Sane

theorem sane_iff : d.Sane ↔ d.Dirs (fun p => p.2.Sane) fun p => p.2.Sane :=
  forall_mem_append.trans ⟨fun h => ⟨h.1,h.2⟩,fun h => ⟨h.1,h.2⟩⟩

theorem Sane.loadMultiTree (hd : d.Sane) (h : d.loadMultiTree v = .ok t) : t.Sane := by
  unfold Disk.loadMultiTree at h
  split at h
  · cases h
  · rename_i hl
    exact (hd _ (mem_append_left _ (mem_of_lookup hl))).load h

theorem Sane.loadCurrent (hd : d.Sane) (h : d.loadCurrent = .ok t) : t.Sane := by
  unfold Disk.loadCurrent at h
  split at h
  · cases h
  · exact hd.loadMultiTree h

theorem Sane.rewriteSnapshot (hd : d.Sane) (ht : t.Sane) : (d.rewriteSnapshot t).1.Sane :=
  sane_iff.mpr ((sane_iff.mp hd).rewriteSnapshot (fun _ _ h => h) (sane_writeSnapshot ht _))

theorem Sane.initEmptyDB (hd : d.Sane) (iv : UInt32) : (d.initEmptyDB iv).1.Sane :=
  sane_iff.mpr ((sane_iff.mp hd).initEmptyDB (sane_writeSnapshot (sane_newEmpty iv) _))

theorem truncationOf_truncateWAL (d : Disk) (iv : UInt32) :
    (d.truncateWAL iv).wal.TruncationOf d.wal := by
  unfold Disk.truncateWAL
  simp only
  split
  · exact .refl _
  · rename_i ht
    exact IndexedLog.truncationOf_truncateFront ht

theorem Sane.loadTarget (hd : d.Sane) {T : ℕ} (h : d.loadTarget T = .ok (v,t)) : t.Sane := by
  unfold Disk.loadTarget at h
  split at h
  · cases h
  · split at h
    · cases h
    · rename_i t₁ hl
      have ht := hd.loadMultiTree hl
      split at h
      · split at h
        · cases h
        · rename_i t₂ hc
          cases h
          obtain ⟨n,hn,-⟩ := caughtUp_catchupWAL ht hc
          exact hn.sane
      · cases h
        exact ht

end Disk

theorem sane_putInitialVersion {t : MultiTree} (ht : t.Sane) (h0 : t.version = 0)
    (iv : UInt32) : (t.putInitialVersion iv).Sane :=
  ⟨.inl h0,ht.snapshot⟩

structure Rewriter.Sane (r : Rewriter) : Prop where
  cloned : r.cloned.Sane
  catching : ∀ t, r.stage = .catching t → t.Sane
  sending : ∀ t, r.stage = .sending (.ok t) → t.Sane

def Phase.held : Phase → List WalEntry
  | .sending _ e | .writing _ e => [e]
  | _ => []

/-- `SaveVersion` has just led to version `v`. -/
structure JustSaved (t : MultiTree) (v : ℕ) : Prop where
  version : t.version = v
  snapshot : t.snapshotVersion < v
  position : 0 < t.position

theorem JustSaved.ne_zero {t : MultiTree} {v : ℕ} (h : JustSaved t v) : v ≠ 0 := by
  have := h.snapshot
  omega

namespace DB

def chanFlight (db : DB) : List WalEntry := (db.walChan.map AsyncCommit.flight).getD []

/-- All entries on their way to the log. -/
def flight (db : DB) : List WalEntry := db.chanFlight ++ db.phase.held

/-- Invariant apart from the call that is running, with the last index of the log. -/
structure Base (db : DB) (last : ℕ) : Prop where
  sane : db.mtree.Sane
  rewriter : ∀ r ∈ db.rewriter, r.Sane
  chan : ∀ c ∈ db.walChan, c.Ok ∧ 0 ≤ db.opts.asyncCommitBuffer
  sorted : (db.chanFlight.map WalEntry.index).Pairwise (· < ·)
  bound : ∀ e ∈ db.chanFlight, e.index ≤ db.mtree.position
  fresh : ∀ c ∈ db.walChan, c.Fresh last

def Open (db : DB) : Prop := ∀ c ∈ db.walChan, c.closed = false

/-- `Commit` holds the entry of the version it has saved. -/
structure Holds (db : DB) (v : ℕ) (e : WalEntry) : Prop where
  saved : JustSaved db.mtree v
  index : e.index = db.mtree.position
  last : ∀ e' ∈ db.chanFlight, e'.index < e.index

def PhaseOk (db : DB) : Prop :=
  match db.phase with
  | .idle | .pruning _ _ => db.Open
  | .sending v e => db.Open ∧ db.Holds v e ∧ db.walChan.isSome
  | .writing v e => db.Open ∧ db.Holds v e ∧ db.opts.asyncCommitBuffer < 0
  | .checkAsyncCommit v | .checkRewrite v _ => db.Open ∧ JustSaved db.mtree v
  | .waiting v _ t => db.Open ∧ JustSaved db.mtree v ∧ t.Sane
  | .waitQuit | .closeQuit => ∃ c, db.walChan = some c ∧ c.closed = true
  | .closeRewrite _ => db.walChan = none ∧ db.rewriter.isSome

structure Ok (db : DB) (last : ℕ) : Prop where
  base : db.Base last
  phase : db.PhaseOk

structure Touches (db db' : DB) : Prop where
  mtree : SameVersion db.mtree db'.mtree
  walChan : db'.walChan = db.walChan
  rewriter : db'.rewriter = db.rewriter
  opts : db'.opts = db.opts

namespace Touches

theorem refl (db : DB) : Touches db db := ⟨.refl _,rfl,rfl,rfl⟩

variable {db db' db'' : DB} {last : ℕ}

theorem trans (h : Touches db db') (hh : Touches db' db'') : Touches db db'' :=
  ⟨h.mtree.trans hh.mtree,hh.walChan.trans h.walChan,hh.rewriter.trans h.rewriter,
    hh.opts.trans h.opts⟩

theorem chanFlight_eq (h : Touches db db') : db'.chanFlight = db.chanFlight := by
  rw [chanFlight,chanFlight,h.walChan]

theorem base (h : Touches db db') (hb : db.Base last) : db'.Base last where
  sane := h.mtree.sane hb.sane
  rewriter := by rw [h.rewriter]; exact hb.rewriter
  chan := by rw [h.walChan,h.opts]; exact hb.chan
  sorted := by rw [h.chanFlight_eq]; exact hb.sorted
  bound := by rw [h.chanFlight_eq,h.mtree.position_eq]; exact hb.bound
  fresh := by rw [h.walChan]; exact hb.fresh

theorem isOpen (h : Touches db db') (ho : db.Open) : db'.Open := by
  rw [Open,h.walChan]
  exact ho

end Touches

theorem touches_applyUpgrades (db : DB) (us : List TreeNameUpgrade) :
    Touches db (db.applyUpgrades us).1 := by
  have hs := sameVersion_applyUpgrades db.mtree us
  unfold applyUpgrades
  split
  · exact .refl db
  · split <;> rename_i he <;> rw [he] at hs <;> exact ⟨hs,rfl,rfl,rfl⟩

theorem touches_applyChangeSet (db : DB) (name : Bytes) (cs : ChangeSet) :
    Touches db (db.applyChangeSet name cs).1 := by
  unfold applyChangeSet
  split
  · exact .refl db
  · split
    · exact .refl db
    · exact ⟨sameVersion_applyChangeSet db.mtree name cs,rfl,rfl,rfl⟩

theorem touches_mergeChangeSets (db : DB) (css : List NamedChangeSet) :
    Touches db (db.mergeChangeSets css).1 := by
  induction css generalizing db with
  | nil => exact .refl db
  | cons cs css ih =>
    have h := touches_applyChangeSet db cs.name cs.changeset
    unfold mergeChangeSets
    split <;> rename_i he <;> rw [he] at h
    · exact h
    · exact h.trans (ih _)

theorem touches_applyChangeSets (db : DB) (css : List NamedChangeSet) :
    Touches db (db.applyChangeSets css).1 := by
  unfold applyChangeSets
  split
  · exact .refl db
  · split
    · exact .refl db
    · split
      · exact ⟨sameVersion_applyChangeSets db.mtree css,rfl,rfl,rfl⟩
      · exact touches_mergeChangeSets db css

variable {db : DB} {last : ℕ}

theorem touches_edit {db' : DB} {c : Call} {e : Option String} (h : db.edit c = some (db',e)) :
    Touches db db' := by
  cases c <;> simp only [edit,Option.some.injEq,reduceCtorEq] at h
  case applyUpgrades us =>
    have ht := db.touches_applyUpgrades us
    rwa [h] at ht
  case applyChangeSets css =>
    have ht := db.touches_applyChangeSets css
    rwa [h] at ht
  case applyChangeSet name cs =>
    have ht := db.touches_applyChangeSet name cs
    rwa [h] at ht

theorem Base.setTree (hb : db.Base last) {mtree : MultiTree} (hm : mtree.Sane)
    (hpos : db.mtree.position ≤ mtree.position) : Base { db with mtree } last :=
  ⟨hm,hb.rewriter,hb.chan,hb.sorted,fun e he => (hb.bound e he).trans hpos,hb.fresh⟩

theorem Base.setRewriter (hb : db.Base last) {r : Option Rewriter} (hr : ∀ x ∈ r, x.Sane) :
    Base { db with rewriter := r } last :=
  ⟨hb.sane,hr,hb.chan,hb.sorted,hb.bound,hb.fresh⟩

section
variable (hb : db.Base last)
include hb

theorem Base.clone : Base { db with rewriter := some { cloned := db.mtree } } last := by
  refine hb.setRewriter ?_
  rintro r ⟨⟩
  exact ⟨hb.sane,by simp,by simp⟩

theorem Base.closeChan : Base { db with walChan := none } last :=
  ⟨hb.sane,hb.rewriter,by simp,by simp [chanFlight],by simp [chanFlight],by simp⟩

theorem Base.setLast (hchan : db.walChan = none) (last' : ℕ) : db.Base last' :=
  ⟨hb.sane,hb.rewriter,hb.chan,hb.sorted,hb.bound,by simp [hchan]⟩

theorem Base.walChan_eq_none (h : db.opts.asyncCommitBuffer < 0) : db.walChan = none := by
  cases hc : db.walChan with
  | none => rfl
  | some c => exact absurd (hb.chan c hc).2 (not_le.mpr h)

theorem Base.quitWriter :
    Base { db with walChan := db.walChan.map fun c => { c with writer := .quit } } last := by
  have hflight : chanFlight { db with
      walChan := db.walChan.map fun c => { c with writer := .quit } } = [] := by
    unfold chanFlight
    cases db.walChan <;> simp [AsyncCommit.flight,Writer.Dead]
  refine ⟨hb.sane,hb.rewriter,?_,by simp [hflight],by simp [hflight],
    by simp [AsyncCommit.Fresh]⟩
  simp only [Option.mem_map,forall_exists_index,and_imp,forall_apply_eq_imp_iff₂]
  intro c hc
  exact ⟨⟨(hb.chan c hc).1.fits,by simp⟩,(hb.chan c hc).2⟩

end

structure Saved (db : DB) (mtree : MultiTree) (v : ℕ) : Prop where
  sane : mtree.Sane
  saved : JustSaved mtree v
  position : mtree.position = db.mtree.position+1
  index : walIndex v mtree.initialVersion = mtree.position

theorem saved_of_saveVersion (hsane : db.mtree.Sane) {mtree : MultiTree} {v : ℕ}
    (he : db.mtree.saveVersion true = (mtree,.ok v)) : db.Saved mtree v := by
  have ha := advances_saveVersion db.mtree true
  have hv := saveVersion_ok_version he
  rw [he] at ha
  have hpos := ha.position_eq hsane
  have hlt := ha.snapshotVersion_lt hsane
  simp only at ha hv hpos hlt
  refine ⟨ha.sane hsane,⟨hv,hv ▸ hlt,by omega⟩,hpos,?_⟩
  rw [MultiTree.position,hv,walIndex_of_pos (by omega)]

/-- The channel is made by the first `Commit` that uses it. -/
theorem chanFlight_sends (db : DB) (mtree : MultiTree) (phase : Phase) : chanFlight { db with
    mtree
    walChan := some (db.walChan.getD { size := db.opts.asyncCommitBuffer.toNat })
    phase } = db.chanFlight := by
  simp only [chanFlight]
  cases db.walChan <;> rfl

theorem position_of_version (h : db.mtree.version = 0) : db.mtree.position = 0 := by
  rw [MultiTree.position,entriesAt,if_pos h]

end DB

namespace System

structure Ok (s : System) : Prop where
  disk : s.disk.Sane
  db : ∀ db ∈ s.db, db.Ok s.disk.wal.lastIndex

variable {s s' : System} {db : DB}

theorem ok_put (hd : s.disk.Sane) (hdb : db.Ok s.disk.wal.lastIndex) : (s.put db).Ok := by
  refine ⟨hd,?_⟩
  rintro db ⟨⟩
  exact hdb

theorem ok_ret (hd : s.disk.Sane) (hb : db.Base s.disk.wal.lastIndex) (ho : db.Open) (c : Call)
    (r : Reply) : (s.ret db c r).Ok := by
  refine ⟨hd,?_⟩
  rintro db ⟨⟩
  exact ⟨⟨hb.sane,hb.rewriter,hb.chan,hb.sorted,hb.bound,hb.fresh⟩,ho⟩

theorem ok_finishCommit (hd : s.disk.Sane) (hb : db.Base s.disk.wal.lastIndex) (ho : db.Open)
    (v : ℕ) (err : Option String) : (s.finishCommit db v err).Ok := by
  have hf := finishes_finishCommit s db v err
  generalize s.finishCommit db v err = s₁ at hf ⊢
  cases hf with
  | failed e | kept => exact ok_ret hd hb ho _ _
  | clones _ _ => exact ok_ret hd hb.clone ho _ _

section
variable {mtree : MultiTree} {v : ℕ} (hs : s.Ok) (hb : db.Base s.disk.wal.lastIndex) (ho : db.Open)
  (hsaved : db.Saved mtree v)
include hs hb ho hsaved

theorem ok_sends {trace : List Event} (hbuf : 0 ≤ db.opts.asyncCommitBuffer) :
    Ok ({ s with trace }.put { db with
      mtree
      walChan := some (db.walChan.getD { size := db.opts.asyncCommitBuffer.toNat })
      phase := .sending v (db.entry mtree v) }) := by
  have hflight := db.chanFlight_sends mtree (.sending v (db.entry mtree v))
  have hpos := hsaved.position
  refine @ok_put { s with trace } _ hs.disk
    ⟨⟨hsaved.sane,hb.rewriter,?_,?_,?_,?_⟩,?_,⟨hsaved.saved,hsaved.index,?_⟩,rfl⟩
  · rintro c ⟨⟩
    cases hc : db.walChan with
    | none => exact ⟨⟨by simp,by simp⟩,hbuf⟩
    | some c => exact ⟨(hb.chan c hc).1,hbuf⟩
  · rw [hflight]
    exact hb.sorted
  · rw [hflight]
    exact fun e he => (hb.bound e he).trans (by simp only; omega)
  · rintro c ⟨⟩
    cases hc : db.walChan with
    | none => simp [AsyncCommit.Fresh]
    | some c => exact hb.fresh c hc
  · rintro c ⟨⟩
    cases hc : db.walChan with
    | none => rfl
    | some c => exact ho c hc
  · rw [hflight,DB.entry,hsaved.index,hpos]
    exact fun e he => Nat.lt_succ_of_le (hb.bound e he)

theorem ok_writes {trace : List Event} (hbuf : db.opts.asyncCommitBuffer < 0) :
    Ok ({ s with trace }.put { db with mtree, phase := .writing v (db.entry mtree v) }) := by
  have hpos := hsaved.position
  have hb' := hb.setTree hsaved.sane (by omega)
  refine @ok_put { s with trace } _ hs.disk ⟨⟨hb'.sane,hb'.rewriter,hb'.chan,hb'.sorted,hb'.bound,
    hb'.fresh⟩,ho,⟨hsaved.saved,hsaved.index,?_⟩,hbuf⟩
  rw [DB.entry,hsaved.index,hpos]
  exact fun e he => Nat.lt_succ_of_le (hb.bound e he)

end

theorem ok_closeRewrite (hd : s.disk.Sane) (hb : db.Base s.disk.wal.lastIndex)
    (hchan : db.walChan = none) (err : Option String) : (s.closeRewrite db err).Ok := by
  unfold closeRewrite
  split
  · exact ⟨hd,by simp [finishClose]⟩
  · rename_i hr
    exact ok_put hd ⟨⟨hb.sane,hb.rewriter,hb.chan,hb.sorted,hb.bound,hb.fresh⟩,hchan,by simp [hr]⟩

theorem ok_closing {phase : Phase} {c : AsyncCommit} (hd : s.disk.Sane)
    (hb : db.Base s.disk.wal.lastIndex) (hc : db.walChan = some c) (hphase : phase = .waitQuit ∨ phase = .closeQuit) :
    (s.put { db with walChan := some { c with closed := true }, phase }).Ok := by
  have hflight : DB.chanFlight { db with walChan := some { c with closed := true }, phase } =
      db.chanFlight := by
    simp [DB.chanFlight,hc,AsyncCommit.flight]
  refine ok_put hd ⟨⟨hb.sane,hb.rewriter,?_,by rw [hflight]; exact hb.sorted,
    by rw [hflight]; exact hb.bound,?_⟩,?_⟩
  · rintro c' ⟨⟩
    obtain ⟨hok,hbuf⟩ := hb.chan c hc
    exact ⟨⟨hok.fits,hok.counted⟩,hbuf⟩
  · rintro c' ⟨⟩
    exact hb.fresh c hc
  · rcases hphase with rfl | rfl <;> exact ⟨_,rfl,rfl⟩

theorem sane_setInitialVersion {t mtree : MultiTree} {iv : ℤ} (ht : t.Sane)
    (h : t.setInitialVersion iv = (mtree,none)) : mtree.Sane := by
  unfold MultiTree.setInitialVersion at h
  split at h
  · cases h
  · split at h
    · cases h
    · rename_i h0
      split at h <;> cases h
      exact sane_putInitialVersion ht (not_not.mp h0) _

theorem Starts.ok {c : Call} (h : Starts s db c s') (hs : s.Ok) (hdb : db.Ok s.disk.wal.lastIndex)
    (hidle : db.phase = .idle) : s'.Ok := by
  have hb := hdb.base
  have ho : db.Open := by
    have := hdb.phase
    rwa [DB.PhaseOk,hidle] at this
  cases h with
  | refused r _ _ => exact ok_ret hs.disk hb ho _ _
  | edited he =>
    have ht := DB.touches_edit he
    exact ok_ret hs.disk (ht.base hb) (ht.isOpen ho) _ _
  | @initialised iv mtree _ hv he =>
    refine @ok_ret { s with disk := (s.disk.initEmptyDB mtree.initialVersion).1 }
      { db with mtree } (hs.disk.initEmptyDB _) ?_ ho _ _
    simp only [Disk.wal_initEmptyDB]
    exact hb.setTree (sane_setInitialVersion hb.sane he) (by rw [DB.position_of_version hv]; omega)
  | @saveFailed mtree e _ he =>
    have ha := advances_saveVersion db.mtree true
    rw [he] at ha
    exact ok_ret hs.disk (hb.setTree (ha.sane hb.sane) (by rw [ha.position_eq hb.sane]; omega)) ho _ _
  | sends _ he hbuf => exact ok_sends hs hb ho (DB.saved_of_saveVersion hb.sane he) hbuf
  | writes _ he hbuf => exact ok_writes hs hb ho (DB.saved_of_saveVersion hb.sane he) hbuf
  | rewrites _ =>
    refine ok_ret (hs.disk.rewriteSnapshot hb.sane) ?_ ho _ _
    simp only [Disk.wal_rewriteSnapshot]
    exact hb
  | clones _ _ => exact ok_ret hs.disk hb.clone ho _ _
  | closes hc hphase => exact ok_closing hs.disk hb hc (hphase.imp And.right And.right)
  | awaits hc hr =>
    exact ok_put hs.disk ⟨⟨hb.sane,hb.rewriter,hb.chan,hb.sorted,hb.bound,hb.fresh⟩,hc,hr⟩
  | ends _ _ => exact ⟨hs.disk,by simp [finishClose]⟩

end System

namespace DB

/-- The wait loop of `Commit` ends exactly when the log ends with the version it has saved. -/
theorem committedVersion_eq_iff {db : DB} {v : ℕ} (hsane : db.mtree.Sane)
    (hsaved : JustSaved db.mtree v) (wal : IndexedLog WALEntry) :
    db.committedVersion wal = db.mtree.version ↔ wal.lastIndex = db.mtree.position := by
  have hpos := hsaved.position
  have hindex : walIndex db.mtree.version db.mtree.initialVersion = db.mtree.position :=
    walIndex_of_pos (by have := hsaved.snapshot; have := hsaved.version; omega)
  unfold committedVersion
  split
  · rename_i h0
    have := hsaved.snapshot
    have := hsaved.version
    constructor <;> intro h <;> omega
  · rename_i h0
    rw [walVersion_eq_iff hsane.committable hpos (by omega),hindex]

variable {db : DB} {last : ℕ}

/-- The channel may lose entries, and nothing else that a call relies on. -/
theorem PhaseOk.setChan (h : db.PhaseOk) {c c' : AsyncCommit} (hc : db.walChan = some c)
    (hclosed : c'.closed = c.closed) (hsub : ∀ e ∈ c'.flight, e ∈ c.flight) :
    PhaseOk { db with walChan := some c' } := by
  obtain ⟨opts,mtree,pendingLog,walChan,rewriter,phase⟩ := db
  cases hc
  have hopen : Open ⟨opts,mtree,pendingLog,some c,rewriter,phase⟩ →
      Open ⟨opts,mtree,pendingLog,some c',rewriter,phase⟩ := by
    rintro ho x ⟨⟩
    exact hclosed.trans (ho c rfl)
  have hholds : ∀ v e, Holds ⟨opts,mtree,pendingLog,some c,rewriter,phase⟩ v e →
      Holds ⟨opts,mtree,pendingLog,some c',rewriter,phase⟩ v e := fun v e hh =>
    ⟨hh.saved,hh.index,fun e' he' => hh.last e' (hsub e' he')⟩
  cases phase with
  | idle | pruning v err => exact hopen h
  | sending v e => exact ⟨hopen h.1,hholds v e h.2.1,rfl⟩
  | writing v e => exact ⟨hopen h.1,hholds v e h.2.1,h.2.2⟩
  | checkAsyncCommit v | checkRewrite v err => exact ⟨hopen h.1,h.2⟩
  | waiting v err t => exact ⟨hopen h.1,h.2⟩
  | waitQuit | closeQuit =>
    obtain ⟨x,hx,hxc⟩ := h
    cases hx
    exact ⟨c',rfl,hclosed.trans hxc⟩
  | closeRewrite err => exact absurd h.1 (by simp)

theorem Base.setChan (hb : db.Base last) {c c' : AsyncCommit} (hc : db.walChan = some c)
    (hok : c'.Ok) (hsub : c'.flight.Sublist c.flight) {last' : ℕ} (hfresh : c'.Fresh last') :
    Base { db with walChan := some c' } last' := by
  have hflight : db.chanFlight = c.flight := by simp [chanFlight,hc]
  have hsorted := hb.sorted
  have hbound := hb.bound
  rw [hflight] at hsorted hbound
  refine ⟨hb.sane,hb.rewriter,?_,hsorted.sublist (hsub.map _),
    fun e he => hbound e (hsub.subset he),?_⟩
  · rintro x ⟨⟩
    exact ⟨hok,(hb.chan c hc).2⟩
  · rintro x ⟨⟩
    exact hfresh

end DB

/-- A step of the goroutine only takes entries away. -/
theorem AsyncCommit.Effect.sublist {c c' : AsyncCommit} {wal wal' : IndexedLog WALEntry}
    {failure : Option ℕ} (h : Effect failure c wal c' wal') : c'.flight.Sublist c.flight := by
  cases h with
  | moved h => rw [h]
  | skipped es rest h h' =>
    rw [h,h']
    exact filter_sublist.append (List.Sublist.refl rest)
  | wrote es rest h _ _ h' =>
    rw [h,h']
    exact sublist_append_right es rest
  | refused batch e _ _ h | failed xs e _ h =>
    rw [flight_of_dead (by rw [h]; trivial)]
    exact nil_sublist _

namespace System

variable {s s' : System} {db : DB}

theorem ok_sending {v : ℕ} {entry : WalEntry} {c c' : AsyncCommit} (hs : s.Ok)
    (hdb : db.Ok s.disk.wal.lastIndex) (hphase : db.phase = .sending v entry) (hc : db.walChan = some c)
    (hsend : c.send entry = some c') :
    (s.put { db with walChan := some c', pendingLog := {}, phase := .checkAsyncCommit v }).Ok := by
  have hb := hdb.base
  have hp := hdb.phase
  rw [DB.PhaseOk,hphase] at hp
  obtain ⟨hopen,hholds,-⟩ := hp
  obtain ⟨hcok,hbuf⟩ := hb.chan c hc
  obtain ⟨hok,-,hclosed,hflight⟩ := AsyncCommit.flight_send hcok hsend
  have hcf : db.chanFlight = c.flight := by simp [DB.chanFlight,hc]
  have hsorted := hb.sorted
  have hbound := hb.bound
  have hlast := hholds.last
  rw [hcf] at hsorted hbound hlast
  have hcf' : DB.chanFlight { db with
      walChan := some c', pendingLog := {}, phase := .checkAsyncCommit v } = c'.flight := rfl
  refine ok_put hs.disk ⟨⟨hb.sane,hb.rewriter,?_,?_,?_,?_⟩,?_,hholds.saved⟩
  · rintro x ⟨⟩
    exact ⟨hok,hbuf⟩
  · rw [hcf',hflight]
    split
    · simp
    · rw [map_append,pairwise_append]
      refine ⟨hsorted,by simp,?_⟩
      simpa using hlast
  · rw [hcf',hflight]
    split
    · simp
    · simp only [mem_append,mem_singleton]
      rintro e (he | rfl)
      · exact hbound e he
      · exact hholds.index.le
  · rintro x ⟨⟩
    exact (hb.fresh c hc).send hsend
  · rintro x ⟨⟩
    exact hclosed.trans (hopen c hc)

/-- The trees that `Commit` switches to are not behind those it leaves. -/
theorem base_switch {v : ℕ} {t t₁ mtree : MultiTree} {err : Option String}
    (hb : db.Base s.disk.wal.lastIndex) (hsaved : JustSaved db.mtree v) (ht : t.Sane)
    (hguard : db.committedVersion s.disk.wal = db.mtree.version)
    (hc : t.catchupWAL s.disk.wal 0 = .ok t₁) (ha : t₁.applyWALEntry db.pendingLog = (mtree,err)) :
    mtree.Sane ∧ db.mtree.position ≤ mtree.position := by
  obtain ⟨n,hn,hpos⟩ := caughtUp_catchupWAL ht hc
  have hsame := sameVersion_applyWALEntry t₁ db.pendingLog
  rw [ha] at hsame
  refine ⟨hsame.sane hn.sane,?_⟩
  rw [hsame.position_eq,hpos rfl,(DB.committedVersion_eq_iff hb.sane hsaved _).mp hguard]
  exact le_max_right _ _

theorem Proceeds.ok {failure : Option ℕ} (h : Proceeds s db failure s') (hs : s.Ok)
    (hdb : db.Ok s.disk.wal.lastIndex) : s'.Ok := by
  have hb := hdb.base
  have hp := hdb.phase
  unfold DB.PhaseOk at hp
  cases h with
  | sent hphase hc hsend => exact ok_sending hs hdb hphase hc hsend
  | broke hphase _ =>
    rw [hphase] at hp
    refine ok_ret ?_ (hb.setLast (hb.walChan_eq_none hp.2.2) _) hp.1 _ _
    exact hs.disk
  | outOfOrder hphase _ =>
    rw [hphase] at hp
    exact ok_ret hs.disk hb hp.1 _ _
  | written hphase _ =>
    rw [hphase] at hp
    have hsync := hb.setLast (hb.walChan_eq_none hp.2.2)
    exact ok_put hs.disk ⟨⟨hb.sane,hb.rewriter,hb.chan,hb.sorted,hb.bound,(hsync _).fresh⟩,hp.1,
      hp.2.1.saved⟩
  | checked hphase _ =>
    rw [hphase] at hp
    exact ok_put hs.disk ⟨⟨hb.sane,hb.rewriter,hb.chan,hb.sorted,hb.bound,hb.fresh⟩,hp⟩
  | quit e hphase _ =>
    rw [hphase] at hp
    have hq := hb.quitWriter
    refine ok_put hs.disk ⟨⟨hq.sane,hq.rewriter,hq.chan,hq.sorted,hq.bound,hq.fresh⟩,?_,hp.2⟩
    simp only [DB.Open,Option.mem_map,forall_exists_index,and_imp,forall_apply_eq_imp_iff₂]
    exact fun c hc => hp.1 c hc
  | passed hphase _ | notCaughtUp hphase _ _ =>
    rw [hphase] at hp
    exact ok_finishCommit hs.disk hb hp.1 _ _
  | notRewritten hphase _ _ | dropped hphase _ _ =>
    rw [hphase] at hp
    have hb' := hb.setRewriter (r := none) (by simp)
    exact ok_finishCommit hs.disk hb' hp.1 _ _
  | received hphase hr hstage =>
    rw [hphase] at hp
    exact ok_put hs.disk ⟨⟨hb.sane,by simp,hb.chan,hb.sorted,hb.bound,hb.fresh⟩,hp.1,hp.2,
      (hb.rewriter _ hr).sending _ hstage⟩
  | notReplayed hphase hguard hc ha =>
    rw [hphase] at hp
    obtain ⟨hm,hpos⟩ := base_switch hb hp.2.1 hp.2.2 hguard hc ha
    exact ok_finishCommit hs.disk (hb.setTree hm hpos) hp.1 _ _
  | switched hphase hguard hc ha =>
    rw [hphase] at hp
    obtain ⟨hm,hpos⟩ := base_switch hb hp.2.1 hp.2.2 hguard hc ha
    have hb' := hb.setTree hm hpos
    exact ok_put hs.disk ⟨⟨hb'.sane,hb'.rewriter,hb'.chan,hb'.sorted,hb'.bound,hb'.fresh⟩,hp.1⟩
  | prunes hphase _ =>
    rw [hphase] at hp
    refine ok_finishCommit ?_ ?_ hp _ _
    · exact hs.disk
    · exact hb
  | waited _ _ _ => exact ok_ret hs.disk hb.closeChan (by simp [DB.Open]) _ _
  | awaits _ _ _ hr =>
    have hb' := hb.closeChan
    exact ok_put hs.disk ⟨⟨hb'.sane,hb'.rewriter,hb'.chan,hb'.sorted,hb'.bound,hb'.fresh⟩,rfl,hr⟩
  | closed _ _ _ _ | ends _ => exact ⟨hs.disk,by simp [finishClose]⟩

variable {d : Disk} {o : Options}

/-- What a step of the rewriting goroutine leaves of the log and of sanity. -/
theorem Rewrites.sane {d' : Disk} {r r' : Rewriter} (h : Rewrites d r d' r') (hd : d.Sane)
    (hr : r.Sane) : d'.Sane ∧ r'.Sane ∧ d'.wal = d.wal := by
  rw [Disk.sane_iff]
  have hdirs := Disk.sane_iff.mp hd
  cases h with
  | wrote _ => exact ⟨hdirs.writeTmp (sane_writeSnapshot hr.cloned _),⟨hr.cloned,by simp,by simp⟩,rfl⟩
  | cancelled _ => exact ⟨hdirs.dropTmp _,⟨hr.cloned,by simp,by simp⟩,rfl⟩
  | renamed _ h =>
    exact ⟨hdirs.renameTmp (fun _ _ h => h) h,⟨hr.cloned,by simp,by simp⟩,Disk.wal_renameTmp h⟩
  | linked _ h =>
    have hsame := Disk.sameDirs_linkTmp h
    exact ⟨hdirs.same hsame,⟨hr.cloned,by simp,by simp⟩,hsame.wal⟩
  | switched _ h =>
    have hsame := Disk.sameDirs_renameLink h
    exact ⟨hdirs.same hsame,⟨hr.cloned,by simp,by simp⟩,hsame.wal⟩
  | failed | notLoaded _ _ => exact ⟨hdirs,⟨hr.cloned,by simp,by simp⟩,rfl⟩
  | loaded _ hl =>
    refine ⟨hdirs,⟨hr.cloned,?_,by simp⟩,rfl⟩
    rintro x ⟨⟩
    exact hd.loadCurrent hl
  | caughtUp hstage =>
    refine ⟨hdirs,⟨hr.cloned,by simp,?_⟩,rfl⟩
    intro x hx
    obtain ⟨n,hn,-⟩ := caughtUp_catchupWAL (hr.catching _ hstage) (RewriteStage.sending.inj hx)
    exact hn.sane

theorem ok_rewrite (hs : s.Ok) (hdb : db.Ok s.disk.wal.lastIndex) {r r' : Rewriter}
    (hr : db.rewriter = some r) (h : Rewrites s.disk r d r') :
    Ok { s with disk := d, db := some { db with rewriter := some r' } } := by
  have hb := hdb.base
  obtain ⟨hd,hr',hwal⟩ := h.sane hs.disk (hb.rewriter r hr)
  refine ⟨hd,?_⟩
  rintro x ⟨⟩
  simp only [hwal]
  refine ⟨hb.setRewriter (by rintro x ⟨⟩; exact hr'),?_⟩
  have hp := hdb.phase
  unfold DB.PhaseOk at hp ⊢
  simp only
  split <;> rename_i hphase <;> rw [hphase] at hp
  case h_10 => exact ⟨hp.1,rfl⟩
  case h_3 => exact ⟨hp.1,⟨hp.2.1.saved,hp.2.1.index,hp.2.1.last⟩,hp.2.2⟩
  case h_4 => exact ⟨hp.1,⟨hp.2.1.saved,hp.2.1.index,hp.2.1.last⟩,hp.2.2⟩
  all_goals exact hp

theorem ok_write (hs : s.Ok) (hdb : db.Ok s.disk.wal.lastIndex) {c c' : AsyncCommit} {failure : Option ℕ}
    {wal : IndexedLog WALEntry} (hc : db.walChan = some c)
    (h : c.step s.disk.wal failure = some (c',wal)) :
    Ok { s with disk := { s.disk with wal }, db := some { db with walChan := some c' } } := by
  have hsteps := AsyncCommit.steps_of_step h
  obtain ⟨hok,-,hclosed⟩ := hsteps.ok (hdb.base.chan c hc).1
  have hsub := hsteps.effect.sublist
  refine ⟨hs.disk,?_⟩
  rintro x ⟨⟩
  exact ⟨hdb.base.setChan hc hok hsub hsteps.fresh,hdb.phase.setChan hc hclosed fun e he => hsub.subset he⟩

theorem Prunes.ok {p : Pruner} (h : Prunes s p s') (hs : s.Ok) : s'.Ok := by
  cases h with
  | ended | listed _ _ _ | panics _ _ => exact ⟨hs.disk,hs.db⟩
  | removed _ =>
    refine ⟨Disk.sane_iff.mpr ((Disk.sane_iff.mp hs.disk).removeSnapshot _),?_⟩
    simp only [Disk.wal_removeSnapshot]
    exact hs.db
  | truncated _ _ =>
    refine ⟨Disk.sane_iff.mpr ((Disk.sane_iff.mp hs.disk).truncateWAL _),?_⟩
    simp only [(s.disk.truncationOf_truncateWAL _).lastIndex_eq]
    exact hs.db

theorem ok_fresh {opts : Options} {mtree : MultiTree} {last : ℕ} (ht : mtree.Sane) :
    DB.Ok { opts, mtree } last :=
  ⟨⟨ht,by simp,by simp,by simp [DB.chanFlight],by simp [DB.chanFlight],by simp⟩,
    by simp [DB.PhaseOk,DB.Open]⟩

theorem sane_prepare (hd : d.Sane) (o : Options) : (DB.prepare o d).1.Sane :=
  Disk.sane_iff.mpr ((Disk.sane_iff.mp hd).prepare (sane_writeSnapshot (sane_newEmpty _) _))

theorem wal_prepare (o : Options) (d : Disk) : (DB.prepare o d).1.wal = d.wal := by
  have hcreate : (if o.createIfMissing then d.createDBIfNotExist o.initialVersion
      else (d,none)).1.wal = d.wal := by
    unfold Disk.createDBIfNotExist
    split
    · split
      · exact d.wal_initEmptyDB _
      · split
        · rfl
        · exact d.wal_initEmptyDB _
    · rfl
  unfold DB.prepare
  split
  · rfl
  · split <;> rename_i he <;> rw [he] at hcreate
    · exact hcreate
    · simp only
      split <;> exact hcreate

theorem touches_openWith {mtree : MultiTree} (h : DB.openWith o mtree = .ok db) :
    DB.Touches { opts := o, mtree } db ∧ db.phase = .idle := by
  have htouch := DB.touches_applyUpgrades { opts := o, mtree }
    (o.initialStores.map fun name => { name })
  have hphase : (DB.applyUpgrades { opts := o, mtree }
      (o.initialStores.map fun name => { name })).1.phase = .idle := by
    unfold DB.applyUpgrades
    split
    · rfl
    · split <;> rfl
  unfold DB.openWith at h
  simp only at h
  split at h
  · split at h
    · cases h
    · rename_i hup
      rw [hup] at htouch hphase
      cases h
      exact ⟨htouch,hphase⟩
  · cases h
    exact ⟨.refl _,rfl⟩

theorem sane_load (hd : d.Sane) (o : Options) : (DB.load o d).2.Sane :=
  Disk.sane_iff.mpr ((Disk.sane_iff.mp hd).load (sane_writeSnapshot (sane_newEmpty _) _))

theorem load_eq_ok {d' : Disk} (h : DB.load o d = (.ok db,d')) :
    ∃ (d₁ : Disk) (v : ℕ) (mtree : MultiTree), DB.prepare o d = (d₁,none) ∧
      d₁.loadTarget o.targetVersion.toNat = .ok (v,mtree) ∧
      DB.rollback o d₁ v mtree.initialVersion = (d',none) ∧ DB.openWith o mtree = .ok db := by
  unfold DB.load at h
  split at h
  · cases h
  · rename_i d₁ he
    split at h
    · cases h
    · rename_i v mtree hl
      split at h
      · cases h
      · rename_i hr
        obtain ⟨ho,rfl⟩ := Prod.mk.inj h
        exact ⟨d₁,v,mtree,he,hl,hr,ho⟩

theorem ok_load (hs : s.Ok) (h : DB.load o s.disk = (.ok db,d)) :
    Ok { s with disk := d, db := some db } := by
  obtain ⟨d₁,v,mtree,hp,hl,-,ho⟩ := load_eq_ok h
  obtain ⟨htouch,hphase⟩ := touches_openWith ho
  have hd₁ := sane_prepare hs.disk o
  have hd := sane_load hs.disk o
  rw [hp] at hd₁
  rw [h] at hd
  have hok := @ok_fresh o mtree d.wal.lastIndex (hd₁.loadTarget hl)
  refine ⟨hd,?_⟩
  rintro x ⟨⟩
  refine ⟨htouch.base hok.base,?_⟩
  rw [DB.PhaseOk,hphase]
  exact htouch.isOpen hok.phase

/-- Every action keeps the invariant. -/
theorem Ok.step (hs : s.Ok) {a : Act} (h : s.step a = some s') : s'.Ok := by
  cases turns_of_step h with
  | loaded _ _ hl => exact ok_load hs hl
  | @notLoaded o _ _ hdb _ hl =>
    have hd := sane_load hs.disk o
    rw [hl] at hd
    exact ⟨hd,by simp [hdb]⟩
  | starts hdb hidle h => exact h.ok hs (hs.db _ hdb) hidle
  | proceeds hdb h => exact h.ok hs (hs.db _ hdb)
  | writes hdb hc hw => exact ok_write hs (hs.db _ hdb) hc hw
  | rewrites hdb hr hstep => exact ok_rewrite hs (hs.db _ hdb) hr hstep
  | prunes _ h => exact h.ok hs
  | crashed keep => exact ⟨hs.disk,by simp [endsWith]⟩
  | interrupted hp =>
    have hd := (Disk.sane_iff.mp hs.disk).points (fun _ => sane_writeSnapshot (sane_newEmpty _) _)
      (fun _ _ _ _ h => h) (fun db hdb => sane_writeSnapshot (hs.db db hdb).base.sane _) hp
    exact ⟨Disk.sane_iff.mpr ⟨hd.snapshots,hd.tmpDirs⟩,by simp [endsWith]⟩

/-- States that some actions lead to from an empty directory. -/
def Reachable (s : System) : Prop := Transition.Run System.step (fun _ _ => True) {} s

theorem Reachable.ok (h : s.Reachable) : s.Ok :=
  h.invariant ⟨by simp [Disk.Sane],by simp⟩ fun _ _ _ hs _ hstep => hs.step hstep

end System

end Memiavl
