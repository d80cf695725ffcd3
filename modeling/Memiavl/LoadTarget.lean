import Memiavl.WalOrder

/-! `Load` at a target version: in every state of the system a snapshot directory has the
version that its name says, and the first one holds no tree. From this follows which version a
load yields. -/
namespace Memiavl

open MultiTree List Transition

theorem load_trees_nil {d : SnapshotDir} {t : MultiTree} (h : MultiTree.load d = .ok t)
    (hd : d.trees = []) : t.trees = [] := by
  unfold MultiTree.load at h
  rw [hd] at h
  cases hm : readMetadata d with
  | error e =>
    rw [hm] at h
    cases h
  | ok m =>
    rw [hm] at h
    cases h
    unfold putInitialVersion
    simp only
    split <;> rfl

namespace Disk

/-- Snapshots have the versions that their names say; that of an empty database has no tree. -/
structure Rooted (d : Disk) : Prop where
  named : ∀ p ∈ d.snapshots ++ d.tmpDirs, p.2.metadata.commitInfo.version = p.1
  empty : ∀ p ∈ d.snapshots, p.1 = 0 → p.2.trees = []

variable {d d' : Disk} {v w : ℕ}

theorem rooted_iff : d.Rooted ↔
    d.Dirs (fun p => p.2.metadata.commitInfo.version = p.1 ∧ (p.1 = 0 → p.2.trees = []))
      fun p => p.2.metadata.commitInfo.version = p.1 := by
  constructor
  · intro h
    exact ⟨fun p hp => ⟨h.named p (mem_append_left _ hp),h.empty p hp⟩,
      fun p hp => h.named p (mem_append_right _ hp)⟩
  · intro h
    exact ⟨forall_mem_append.mpr ⟨fun p hp => (h.snapshots p hp).1,h.tmpDirs⟩,
      fun p hp => (h.snapshots p hp).2⟩

theorem SameDirs.versions (h : SameDirs d d') : d'.versions = d.versions := by
  rw [Disk.versions,Disk.versions,h.snapshots]

theorem mem_versions_putDir {dir : SnapshotDir} {dirs : List (ℕ × SnapshotDir)} :
    w ∈ (putDir v dir dirs).map Prod.fst ↔ w = v ∨ w ∈ dirs.map Prod.fst := by
  simp only [putDir,List.mem_map,mem_orderedInsert,mem_filter,decide_eq_true_eq]
  constructor
  · rintro ⟨p,rfl | ⟨hp,-⟩,rfl⟩
    · exact .inl rfl
    · exact .inr ⟨p,hp,rfl⟩
  · rintro (rfl | ⟨p,hp,rfl⟩)
    · exact ⟨_,.inl rfl,rfl⟩
    · by_cases hpv : p.1 = v
      · exact ⟨_,.inl rfl,hpv.symm⟩
      · exact ⟨p,.inr ⟨hp,hpv⟩,rfl⟩

/-- The empty snapshot is there when trees without a version are written, so these never take
its place. -/
theorem Rooted.not_new (hv : v = 0 → 0 ∈ d.versions) (hnew : v ∉ d.versions) (dir : SnapshotDir)
    (h : dir.metadata.commitInfo.version = v) :
    dir.metadata.commitInfo.version = v ∧ (v = 0 → dir.trees = []) :=
  ⟨h,fun h0 => absurd (hv h0) (h0 ▸ hnew)⟩

theorem versions_renameTmp (h : d.renameTmp v = some d') :
    w ∈ d'.versions ↔ w = v ∨ w ∈ d.versions := by
  obtain ⟨dir,-,-,rfl⟩ := renameTmp_eq_some.mp h
  exact mem_versions_putDir

theorem zero_mem_rewriteSnapshot (h : 0 ∈ d.versions) (t : MultiTree) :
    0 ∈ (d.rewriteSnapshot t).1.versions := by
  unfold Disk.rewriteSnapshot
  simp only
  split
  · exact h
  · rename_i d₁ hr
    rw [(sameDirs_updateCurrentSymlink d₁ t.version).versions]
    exact (versions_renameTmp hr).mpr (.inr h)

theorem mem_oldTrees {dirs : List (ℕ × SnapshotDir)} {f : Bytes × TreeFiles}
    (h : f ∈ oldTrees dirs v) : ∃ dir, (v,dir) ∈ dirs ∧ f ∈ dir.trees := by
  unfold oldTrees at h
  cases hl : dirs.lookup v with
  | none => simp [hl] at h
  | some dir =>
    simp only [hl,Option.map_some,Option.getD_some] at h
    exact ⟨dir,mem_of_lookup hl,h⟩

/-- The snapshot of an empty database. -/
theorem Rooted.created (hd : d.Rooted) (iv : UInt32) :
    ((newEmpty iv).writeSnapshot (oldTrees d.snapshots 0)).metadata.commitInfo.version = 0 ∧
      (0 = 0 → ((newEmpty iv).writeSnapshot (oldTrees d.snapshots 0)).trees = []) := by
  have hold : oldTrees d.snapshots 0 = [] := by
    rw [eq_nil_iff_forall_not_mem]
    intro f hf
    obtain ⟨dir,hdir,hf⟩ := mem_oldTrees hf
    rw [hd.empty _ hdir rfl] at hf
    cases hf
  exact ⟨rfl,fun _ => by simp [MultiTree.writeSnapshot,newEmpty,hold]⟩

theorem zero_mem_initEmptyDB (d : Disk) (iv : UInt32) : 0 ∈ (d.initEmptyDB iv).1.versions := by
  rw [initEmptyDB,(sameDirs_updateCurrentSymlink _ 0).versions]
  exact mem_versions_putDir.mpr (.inl rfl)

theorem zero_mem_overwrite (h : 0 ∈ d.versions) (targetVersion v : ℕ) (iv : UInt32) :
    0 ∈ (d.overwrite targetVersion v iv).1.versions := by
  rw [versions] at h ⊢
  obtain ⟨-,hs | hs⟩ := overwrite_dirs d targetVersion v iv <;> rw [hs]
  · exact h
  · simp only [List.mem_map,mem_filter,decide_eq_true_eq] at h ⊢
    obtain ⟨p,hp,h0⟩ := h
    exact ⟨p,⟨hp,by omega⟩,h0⟩

theorem loadMultiTree_eq_ok {t : MultiTree} (h : d.loadMultiTree v = .ok t) :
    ∃ dir, (v,dir) ∈ d.snapshots ∧ MultiTree.load dir = .ok t := by
  unfold loadMultiTree at h
  split at h
  · cases h
  · rename_i dir hl
    exact ⟨dir,mem_of_lookup hl,h⟩

theorem Rooted.loadMultiTree (hd : d.Rooted) {t : MultiTree} (h : d.loadMultiTree v = .ok t) :
    t.version = v ∧ v ∈ d.versions ∧ (v = 0 → t.trees = []) := by
  obtain ⟨dir,hdir,hload⟩ := loadMultiTree_eq_ok h
  refine ⟨?_,List.mem_map_of_mem hdir,fun h0 => ?_⟩
  · rw [version,(load_eq_ok hload).1]
    exact hd.named _ (mem_append_left _ hdir)
  · exact load_trees_nil hload (hd.empty _ hdir h0)

/-- What `Load` starts from, and what it has done to reach the trees it opens. -/
theorem loadTarget_eq_ok {T : ℕ} {t : MultiTree} : d.loadTarget T = .ok (v,t) ↔
    ∃ t₀, d.startSnapshot T = .ok v ∧ d.loadMultiTree v = .ok t₀ ∧
      if T = 0 ∨ t₀.version < T then t₀.catchupWAL d.wal T = .ok t else t = t₀ := by
  unfold loadTarget
  cases hs : d.startSnapshot T with
  | error e => simp
  | ok w =>
    simp only [Except.ok.injEq]
    cases hl : d.loadMultiTree w with
    | error e =>
      simp only [reduceCtorEq,false_iff,not_exists,not_and]
      rintro t₀ rfl h₀
      rw [hl] at h₀
      cases h₀
    | ok t₀ =>
      simp only
      constructor
      · intro h
        refine ⟨t₀,?_⟩
        split at h
        · rename_i hT
          split at h <;> cases h
          rename_i hc
          exact ⟨rfl,hl,by rw [if_pos hT]; exact hc⟩
        · rename_i hT
          cases h
          exact ⟨rfl,hl,by rw [if_neg hT]⟩
      · rintro ⟨t₁,rfl,h₁,h⟩
        rw [hl] at h₁
        cases h₁
        split at h
        · rename_i hT
          rw [if_pos hT,h]
        · rename_i hT
          rw [if_neg hT,h]

end Disk

/-- A database without a version, or a copy of one, relies on the empty snapshot (`zero`), which
is then not pruned. -/
structure DB.Rooted (db : DB) (zero pruning : Prop) : Prop where
  mtree : db.mtree.version = 0 → zero ∧ ¬pruning
  cloned : ∀ r ∈ db.rewriter, r.cloned.version = 0 → zero ∧ ¬pruning
  waiting : ∀ v err t, db.phase = .waiting v err t → db.rewriter = none
  pruning : ∀ v err, db.phase = .pruning v err → db.rewriter = none ∧ db.mtree.version ≠ 0

namespace System

structure Rooted (s : System) : Prop where
  disk : s.disk.Rooted
  db : ∀ db ∈ s.db, db.Rooted (0 ∈ s.disk.versions) s.pruner.isSome

variable {s s' : System} {db : DB}

theorem rooted_ret (hd : s.disk.Rooted)
    (hm : db.mtree.version = 0 → 0 ∈ s.disk.versions ∧ ¬s.pruner.isSome)
    (hr : ∀ r ∈ db.rewriter, r.cloned.version = 0 → 0 ∈ s.disk.versions ∧ ¬s.pruner.isSome)
    (c : Call) (r : Reply) : (s.ret db c r).Rooted := by
  refine ⟨hd,?_⟩
  rintro x ⟨⟩
  exact ⟨hm,hr,by simp,by simp⟩

theorem rooted_put (hd : s.disk.Rooted)
    (hdb : db.Rooted (0 ∈ s.disk.versions) s.pruner.isSome) : (s.put db).Rooted := by
  refine ⟨hd,?_⟩
  rintro x ⟨⟩
  exact hdb

theorem rooted_finishCommit (hd : s.disk.Rooted)
    (hm : db.mtree.version = 0 → 0 ∈ s.disk.versions ∧ ¬s.pruner.isSome)
    (hr : ∀ r ∈ db.rewriter, r.cloned.version = 0 → 0 ∈ s.disk.versions ∧ ¬s.pruner.isSome)
    (v : ℕ) (err : Option String) : (s.finishCommit db v err).Rooted := by
  have hf := finishes_finishCommit s db v err
  generalize s.finishCommit db v err = s₁ at hf ⊢
  cases hf with
  | failed e | kept => exact rooted_ret hd hm hr _ _
  | clones _ _ =>
    refine rooted_ret ?_ ?_ ?_ _ _
    · exact hd
    · exact hm
    · rintro x ⟨⟩
      exact hm

theorem version_saveVersion_ne_zero (t : MultiTree) (update : Bool) :
    (t.saveVersion update).1.version ≠ 0 := by
  rw [(advances_saveVersion t update).version]
  have := lt_nextVersion t.version t.initialVersion
  omega

theorem Rooted.starts (hs : s.Rooted) (hdb : s.db = some db) {c : Call} (h : Starts s db c s') :
    s'.Rooted := by
  have hroot := hs.db db hdb
  have hdirs := Disk.rooted_iff.mp hs.disk
  cases h with
  | refused r _ _ => exact rooted_ret hs.disk hroot.mtree hroot.cloned _ _
  | edited he =>
    have ht := DB.touches_edit he
    refine rooted_ret hs.disk ?_ ?_ _ _
    · rw [ht.mtree.version_eq]
      exact hroot.mtree
    · rw [ht.rewriter]
      exact hroot.cloned
  | initialised _ h0 hset =>
    have hz := hroot.mtree h0
    refine rooted_ret (Disk.rooted_iff.mpr (hdirs.initEmptyDB (hs.disk.created _))) ?_ ?_ _ _
    · exact fun _ => ⟨Disk.zero_mem_initEmptyDB ..,hz.2⟩
    · exact fun r hr hv => ⟨Disk.zero_mem_initEmptyDB ..,hz.2⟩
  | saveFailed _ he =>
    have hne := version_saveVersion_ne_zero db.mtree true
    rw [he] at hne
    refine rooted_ret ?_ ?_ ?_ _ _
    · exact hs.disk
    · exact fun h0 => absurd h0 hne
    · exact hroot.cloned
  | sends _ he _ | writes _ he _ =>
    have hne := version_saveVersion_ne_zero db.mtree true
    rw [he] at hne
    refine @rooted_put { s with trace := _ } _ hs.disk ?_
    exact ⟨fun h0 => absurd h0 hne,hroot.cloned,by simp,by simp⟩
  | rewrites _ =>
    have hz := fun h0 => Disk.zero_mem_rewriteSnapshot (d := s.disk) h0 db.mtree
    refine rooted_ret ?_ ?_ ?_ _ _
    · exact Disk.rooted_iff.mpr
        (hdirs.rewriteSnapshot (Disk.Rooted.not_new fun h0 => (hroot.mtree h0).1) rfl)
    · exact fun h0 => (hroot.mtree h0).imp_left hz
    · exact fun r hr h0 => (hroot.cloned r hr h0).imp_left hz
  | clones _ _ =>
    refine rooted_ret ?_ ?_ ?_ _ _
    · exact hs.disk
    · exact hroot.mtree
    · rintro x ⟨⟩
      exact hroot.mtree
  | closes _ hphase =>
    refine rooted_put hs.disk ⟨hroot.mtree,hroot.cloned,?_,?_⟩
    · rcases hphase with ⟨-,rfl⟩ | ⟨-,rfl⟩ <;> simp
    · rcases hphase with ⟨-,rfl⟩ | ⟨-,rfl⟩ <;> simp
  | awaits _ _ => exact rooted_put hs.disk ⟨hroot.mtree,hroot.cloned,by simp,by simp⟩
  | ends _ _ => exact ⟨hs.disk,by simp [finishClose]⟩

/-- After a switch the database has a version. -/
theorem version_switched {v : ℕ} {err : Option String} {t t₁ mtree : MultiTree} {e : Option String}
    (hdb : db.Ok s.disk.wal.lastIndex) (hphase : db.phase = .waiting v err t)
    (hguard : db.committedVersion s.disk.wal = db.mtree.version)
    (hc : t.catchupWAL s.disk.wal 0 = .ok t₁) (ha : t₁.applyWALEntry db.pendingLog = (mtree,e)) :
    mtree.version ≠ 0 := by
  have hp := hdb.phase
  rw [DB.PhaseOk,hphase] at hp
  obtain ⟨-,hsaved,ht⟩ := hp
  have hpos := (base_switch hdb.base hsaved ht hguard hc ha).2
  intro h0
  have hzero : mtree.position = 0 := by rw [position,entriesAt,if_pos h0]
  have := hsaved.position
  omega

theorem Rooted.proceeds (hok : s.Ok) (hs : s.Rooted) (hdb : s.db = some db) {f : Option ℕ}
    (h : Proceeds s db f s') : s'.Rooted := by
  have hroot := hs.db db hdb
  cases h with
  | sent _ _ _ | checked _ _ | quit _ _ _ | awaits _ _ _ _ =>
    exact rooted_put hs.disk ⟨hroot.mtree,hroot.cloned,by simp,by simp⟩
  | broke _ _ =>
    refine rooted_ret ?_ ?_ ?_ _ _
    · exact ⟨hs.disk.named,hs.disk.empty⟩
    · exact hroot.mtree
    · exact hroot.cloned
  | outOfOrder _ _ => exact rooted_ret hs.disk hroot.mtree hroot.cloned _ _
  | written _ _ =>
    refine rooted_put ?_ ?_
    · exact ⟨hs.disk.named,hs.disk.empty⟩
    · exact ⟨hroot.mtree,hroot.cloned,by simp,by simp⟩
  | passed _ _ | notCaughtUp _ _ _ => exact rooted_finishCommit hs.disk hroot.mtree hroot.cloned _ _
  | notRewritten _ _ _ | dropped _ _ _ =>
    refine rooted_finishCommit ?_ ?_ ?_ _ _
    · exact hs.disk
    · exact hroot.mtree
    · simp
  | received _ _ _ => exact rooted_put hs.disk ⟨hroot.mtree,by simp,by simp,by simp⟩
  | notReplayed hphase hguard hc ha =>
    have hne := version_switched (hok.db db hdb) hphase hguard hc ha
    refine rooted_finishCommit ?_ ?_ ?_ _ _
    · exact hs.disk
    · exact fun h0 => absurd h0 hne
    · exact hroot.cloned
  | switched hphase hguard hc ha =>
    have hne := version_switched (hok.db db hdb) hphase hguard hc ha
    have hnone := hroot.waiting _ _ _ hphase
    exact rooted_put hs.disk ⟨fun h0 => absurd h0 hne,hroot.cloned,by simp,fun _ _ _ => ⟨hnone,hne⟩⟩
  | prunes hphase _ =>
    -- The goroutine starts when no tree without a version is left.
    obtain ⟨hnone,hne⟩ := hroot.pruning _ _ hphase
    refine rooted_finishCommit ?_ ?_ ?_ _ _
    · exact hs.disk
    · exact fun h0 => absurd h0 hne
    · simp [hnone]
  | waited _ _ _ =>
    refine rooted_ret ?_ ?_ ?_ _ _
    · exact hs.disk
    · exact hroot.mtree
    · exact hroot.cloned
  | closed _ _ _ _ | ends _ => exact ⟨hs.disk,by simp [finishClose]⟩

theorem Rooted.rewrites {d : Disk} {r r' : Rewriter} (hs : s.Rooted) (hdb : s.db = some db)
    (hr : db.rewriter = some r) (h : Rewrites s.disk r d r') :
    Rooted { s with disk := d, db := some { db with rewriter := some r' } } := by
  have hroot := hs.db db hdb
  have hcloned := hroot.cloned r hr
  have hdirs := Disk.rooted_iff.mp hs.disk
  obtain ⟨hd,hv,hr'⟩ : d.Rooted ∧ (0 ∈ s.disk.versions → 0 ∈ d.versions) ∧ r'.cloned = r.cloned := by
    rw [Disk.rooted_iff]
    cases h with
    | wrote _ => exact ⟨hdirs.writeTmp rfl,id,rfl⟩
    | cancelled _ => exact ⟨hdirs.dropTmp _,id,rfl⟩
    | renamed _ hd =>
      exact ⟨hdirs.renameTmp (Disk.Rooted.not_new fun h0 => (hcloned h0).1) hd,
        fun h0 => (Disk.versions_renameTmp hd).mpr (.inr h0),rfl⟩
    | linked _ hd =>
      have hsame := Disk.sameDirs_linkTmp hd
      exact ⟨hdirs.same hsame,by rw [hsame.versions]; exact id,rfl⟩
    | switched _ hd =>
      have hsame := Disk.sameDirs_renameLink hd
      exact ⟨hdirs.same hsame,by rw [hsame.versions]; exact id,rfl⟩
    | failed | notLoaded _ _ | loaded _ _ | caughtUp _ => exact ⟨hdirs,id,rfl⟩
  refine ⟨hd,?_⟩
  rintro x ⟨⟩
  refine ⟨fun h0 => (hroot.mtree h0).imp_left hv,?_,?_,?_⟩
  · rintro x ⟨⟩
    rw [hr']
    exact fun h0 => (hcloned h0).imp_left hv
  · intro v err t hphase
    rw [hroot.waiting v err t hphase] at hr
    cases hr
  · intro v err hphase
    rw [(hroot.pruning v err hphase).1] at hr
    cases hr

theorem Rooted.prunes {p : Pruner} (hs : s.Rooted) (hp : s.pruner = some p)
    (h : Prunes s p s') : s'.Rooted := by
  have hactive : s.pruner.isSome := by simp [hp]
  have hne : ∀ db ∈ s.db, ∀ zero pruning : Prop, db.Rooted zero pruning := fun db hdb _ _ =>
    have hroot := hs.db db hdb
    ⟨fun h0 => absurd hactive (hroot.mtree h0).2,
      fun r hr h0 => absurd hactive (hroot.cloned r hr h0).2,hroot.waiting,hroot.pruning⟩
  have hdirs := Disk.rooted_iff.mp hs.disk
  refine ⟨Disk.rooted_iff.mpr ?_,fun db hdb => hne db (h.same.2.1 ▸ hdb) _ _⟩
  cases h with
  | ended | listed _ _ _ | panics _ _ => exact hdirs
  | removed _ => exact hdirs.removeSnapshot _
  | truncated _ _ => exact hdirs.truncateWAL _

theorem rooted_prepare {d : Disk} (hd : d.Rooted) (o : Options) : (DB.prepare o d).1.Rooted :=
  Disk.rooted_iff.mpr ((Disk.rooted_iff.mp hd).prepare (hd.created _))

theorem zero_mem_rollback {d : Disk} (h : 0 ∈ d.versions) (o : Options) (v : ℕ) (iv : UInt32) :
    0 ∈ (DB.rollback o d v iv).1.versions := by
  unfold DB.rollback
  split
  · exact Disk.zero_mem_overwrite h _ v iv
  · exact h

theorem rooted_load {d : Disk} (hd : d.Rooted) (o : Options) : (DB.load o d).2.Rooted :=
  Disk.rooted_iff.mpr ((Disk.rooted_iff.mp hd).load (hd.created _))

/-- The trees that `Load` opens go on from those of the snapshot it starts from. -/
theorem caughtUp_loadTarget {d : Disk} (hd : d.Sane) {T v : ℕ} {t : MultiTree}
    (h : d.loadTarget T = .ok (v,t)) :
    ∃ t₀ n, d.loadMultiTree v = .ok t₀ ∧ CaughtUp t₀ t n := by
  obtain ⟨t₀,-,h₀,hc⟩ := Disk.loadTarget_eq_ok.mp h
  have ht := hd.loadMultiTree h₀
  split at hc
  · obtain ⟨n,hn,-⟩ := caughtUp_catchupWAL ht hc
    exact ⟨t₀,n,h₀,hn⟩
  · subst hc
    exact ⟨t,0,h₀,⟨rfl,rfl,le_rfl,ht,rfl⟩⟩

theorem Rooted.loaded (hok : s.Ok) (hs : s.Rooted) (hp : s.pruner = none) {o : Options} {d : Disk}
    (h : DB.load o s.disk = (.ok db,d)) : Rooted { s with disk := d, db := some db } := by
  have hd := rooted_load hs.disk o
  rw [h] at hd
  obtain ⟨d₁,v,mtree,hprep,hl,hr,ho⟩ := load_eq_ok h
  have hd₁ := rooted_prepare hs.disk o
  have hsane := sane_prepare hok.disk o
  rw [hprep] at hd₁ hsane
  obtain ⟨htouch,hphase⟩ := touches_openWith ho
  obtain ⟨t₀,n,h₀,hc⟩ := caughtUp_loadTarget hsane hl
  obtain ⟨hv,hmem,-⟩ := hd₁.loadMultiTree h₀
  have hzero := fun h0 => zero_mem_rollback (d := d₁) h0 o v mtree.initialVersion
  rw [hr] at hzero
  refine ⟨hd,?_⟩
  rintro x ⟨⟩
  refine ⟨fun h0 => ⟨hzero ?_,by simp [hp]⟩,?_,by simp [hphase],by simp [hphase]⟩
  · have hle := hc.version_le
    rw [htouch.mtree.version_eq] at h0
    simp only at h0
    rwa [show v = 0 by omega] at hmem
  · rw [htouch.rewriter]
    simp

theorem Rooted.step (hok : s.Ok) (hs : s.Rooted) {a : Act} (h : s.step a = some s') :
    s'.Rooted := by
  cases turns_of_step h with
  | loaded _ hp hl => exact hs.loaded hok hp hl
  | @notLoaded o e d hdb _ hl =>
    have hd := rooted_load hs.disk o
    rw [hl] at hd
    exact ⟨hd,by simp [hdb]⟩
  | starts hdb _ hstart => exact hs.starts hdb hstart
  | proceeds hdb hp => exact hs.proceeds hok hdb hp
  | writes hdb _ _ =>
    have hroot := hs.db _ hdb
    refine ⟨⟨hs.disk.named,hs.disk.empty⟩,?_⟩
    rintro x ⟨⟩
    exact ⟨hroot.mtree,hroot.cloned,hroot.waiting,hroot.pruning⟩
  | rewrites hdb hr hrw => exact hs.rewrites hdb hr hrw
  | prunes hp hprune => exact hs.prunes hp hprune
  | crashed keep => exact ⟨⟨hs.disk.named,hs.disk.empty⟩,by simp [endsWith]⟩
  | interrupted hp =>
    have hd := Disk.rooted_iff.mpr ((Disk.rooted_iff.mp hs.disk).points hs.disk.created
      (fun db hdb => Disk.Rooted.not_new fun h0 => ((hs.db db hdb).mtree h0).1) (fun _ _ => rfl) hp)
    exact ⟨⟨hd.named,hd.empty⟩,by simp [endsWith]⟩

theorem Reachable.rooted (h : s.Reachable) : s.Rooted := by
  have hinv : s.Ok ∧ s.Rooted := by
    refine h.invariant (I := fun t => t.Ok ∧ t.Rooted) ⟨Reachable.ok .refl,?_⟩ ?_
    · exact ⟨⟨by simp,by simp⟩,by simp⟩
    · rintro t a t' ⟨hok,ht⟩ - hstep
      exact ⟨hok.step hstep,ht.step hok hstep⟩
  exact hinv.2

theorem disk_finishCommit (s : System) (db : DB) (v : ℕ) (err : Option String) :
    (s.finishCommit db v err).disk = s.disk := by
  obtain ⟨db',r,h,-⟩ := finishCommit_eq s db v err
  rw [h]
  rfl

/-- An action writes to new directories, or to that of version 0. -/
theorem snapshots_step {a : Act} (h : s.step a = some s') : ∀ p ∈ s'.disk.snapshots,
    p.1 = 0 ∨ p.1 ∉ s.disk.versions ∨ p ∈ s.disk.snapshots := by
  have hd : s.disk.Dirs (fun p => p.1 = 0 ∨ p.1 ∉ s.disk.versions ∨ p ∈ s.disk.snapshots)
      fun _ => True := ⟨fun p hp => .inr (.inr hp),fun _ _ => trivial⟩
  refine Disk.Dirs.snapshots (Q := fun _ => True) ?_
  cases turns_of_step h with
  | @loaded o _ _ _ _ hl | @notLoaded o _ _ _ _ hl =>
    have hload := hd.load (o := o) (.inl rfl)
    rwa [hl] at hload
  | starts _ _ hstart =>
    cases hstart with
    | initialised => exact hd.initEmptyDB (.inl rfl)
    | rewrites => exact hd.rewriteSnapshot (fun hv _ _ => .inr (.inl hv)) trivial
    | _ => exact hd
  | proceeds _ hp =>
    cases hp with
    | passed | notRewritten | dropped | notCaughtUp | notReplayed | prunes =>
      rw [disk_finishCommit]
      exact hd
    | _ => exact ⟨hd.1,hd.2⟩
  | writes | crashed => exact ⟨hd.1,hd.2⟩
  | rewrites _ _ hrw =>
    cases hrw with
    | wrote => exact hd.writeTmp trivial
    | cancelled => exact hd.dropTmp _
    | renamed _ hr => exact hd.renameTmp (fun hv _ _ => .inr (.inl hv)) hr
    | linked _ hl => exact hd.same (Disk.sameDirs_linkTmp hl)
    | switched _ hl => exact hd.same (Disk.sameDirs_renameLink hl)
    | _ => exact hd
  | prunes _ hp =>
    cases hp with
    | removed => exact hd.removeSnapshot _
    | truncated => exact hd.truncateWAL _
    | _ => exact hd
  | interrupted hp =>
    have hd' := hd.points (fun _ => .inl rfl) (fun _ _ hv _ _ => .inr (.inl hv)) (fun _ _ => trivial) hp
    exact ⟨hd'.1,hd'.2⟩

/-- A snapshot is written only of trees whose names are those of their directories, and not while
the goroutine writes to the same temporary directory. -/
def WritesApart (s : System) : Act → Prop
  | .call .rewriteSnapshot | .interrupt .rewriteSnapshot _ _ => ∀ db ∈ s.db, db.mtree.PlainNames ∧
      ∀ r ∈ db.rewriter, r.stage = .writing → r.cloned.version ≠ db.mtree.version
  | .rewrite _ => ∀ db ∈ s.db, ∀ r ∈ db.rewriter, r.stage = .writing → r.cloned.PlainNames
  | _ => True

instance (s : System) (a : Act) : Decidable (s.WritesApart a) := by
  unfold WritesApart
  split <;> infer_instance

/-- As long as the snapshot of a version is there, no action, failure or end of the process writes
to its directory, in any schedule. -/
theorem snapshots_immutable {v : ℕ} (hv : v ≠ 0) {dir : SnapshotDir}
    (hrun : Run System.step (fun t a => v ∈ t.disk.versions ∧ t.WritesApart a) s s')
    (hdir : (v,dir) ∈ s'.disk.snapshots) : (v,dir) ∈ s.disk.snapshots := by
  refine hrun.invariant (I := fun t => (v,dir) ∈ t.disk.snapshots → (v,dir) ∈ s.disk.snapshots) id
    (fun t a t' ht hin hstep hmem => ht ?_) hdir
  rcases snapshots_step hstep _ hmem with h0 | hnew | hmem
  · exact absurd h0 hv
  · exact absurd hin.1 hnew
  · exact hmem

/-- A database with the store `x`, whose first version has its snapshot. -/
def snapshotOneActs : List Act :=
  [.load {
      createIfMissing := true
      initialStores := [[120]]
      snapshotInterval := 1
      asyncCommitBuffer := -1 },
    .call (.applyChangeSet [120] [{ key := [1], value := [2] }]),.call .commit] ++
    List.replicate 3 (.proceed none) ++ List.replicate 6 (.rewrite true)

/-- The next version switches to that snapshot and has its own one; the first snapshot and the log
before version 2 are pruned. -/
def snapshotTwoActs : List Act :=
  [.call (.applyChangeSet [120] [{ key := [1], value := [3] }]),.call .commit] ++
    List.replicate 5 (.proceed none) ++ List.replicate 3 .prune ++
    List.replicate 6 (.rewrite true)

theorem snapshots_immutable_two : ∃ (s s' : System) (dir : SnapshotDir), s.Reachable ∧
    Run System.step (fun t a => 1 ∈ t.disk.versions ∧ t.WritesApart a) s s' ∧
    s.disk.versions = [0,1] ∧ s'.disk.versions = [1,2] ∧ s'.disk.current = some 2 ∧
    s'.disk.wal.base = 1 ∧ (1,dir) ∈ s'.disk.snapshots ∧ (1,dir) ∈ s.disk.snapshots := by
  have hex : (exec System.step (fun _ _ => True) snapshotOneActs {}).any (fun s =>
      s.disk.versions = [0,1] ∧ (exec System.step (fun t a => 1 ∈ t.disk.versions ∧ t.WritesApart a)
        snapshotTwoActs s).any fun s' => s'.disk.versions = [1,2] ∧ s'.disk.current = some 2 ∧
          s'.disk.wal.base = 1) = true := by
    decide +kernel
  obtain ⟨s,hrun,hex⟩ := Run.exists_of_exec hex
  obtain ⟨hone,hex⟩ := of_decide_eq_true hex
  obtain ⟨s',hrun',hex⟩ := Run.exists_of_exec hex
  obtain ⟨htwo,hcurrent,hbase⟩ := of_decide_eq_true hex
  obtain ⟨⟨v,dir⟩,hdir,rfl : v = 1⟩ := List.mem_map.mp (htwo ▸ mem_cons_self : 1 ∈ s'.disk.versions)
  exact ⟨s,s',dir,hrun,hrun',hone,htwo,hcurrent,hbase,hdir,
    snapshots_immutable one_ne_zero hrun' hdir⟩

end System

namespace Disk

variable {d : Disk} {T v : ℕ}

theorem seekIn_eq_ok {vs : List ℕ} : seekIn T vs = .ok v ↔
    ∃ larger rest, vs = larger ++ v::rest ∧ (∀ w ∈ larger, T < w ∧ w < 2^31) ∧
      v ≤ T ∧ v < 2^31 := by
  induction vs with
  | nil => simp [seekIn]
  | cons w vs ih =>
    unfold seekIn
    by_cases hw : w < 2^31
    · simp only [parseVersion,if_pos hw]
      by_cases hwT : w ≤ T
      · rw [if_pos hwT]
        constructor
        · rintro ⟨⟩
          exact ⟨[],vs,rfl,by simp,hwT,hw⟩
        · rintro ⟨_ | ⟨x,larger⟩,rest,heq,hl,-⟩ <;> obtain ⟨rfl,rfl⟩ := List.cons.inj heq
          · rfl
          · have := (hl w (by simp)).1
            omega
      · rw [if_neg hwT,ih]
        constructor
        · rintro ⟨larger,rest,rfl,hl,hv⟩
          refine ⟨w::larger,rest,rfl,?_,hv⟩
          rintro x (_ | ⟨_,hx⟩)
          · exact ⟨by omega,hw⟩
          · exact hl x hx
        · rintro ⟨_ | ⟨x,larger⟩,rest,heq,hl,hv⟩ <;> obtain ⟨rfl,rfl⟩ := List.cons.inj heq
          · exact absurd hv.1 hwT
          · exact ⟨larger,rest,rfl,fun y hy => hl y (by simp [hy]),hv⟩
    · -- A name that cannot be parsed ends the search.
      simp only [parseVersion,if_neg hw,reduceCtorEq,false_iff,not_exists,not_and]
      rintro (_ | ⟨x,larger⟩) rest heq hl - <;> obtain ⟨rfl,rfl⟩ := List.cons.inj heq
      · exact hw
      · exact absurd (hl w (by simp)).2 hw

theorem startSnapshot_eq_ok (hT : 0 < T) : d.startSnapshot T = .ok v ↔ d.seekSnapshot T = .ok v := by
  unfold startSnapshot
  rw [if_pos hT]
  cases d.seekSnapshot T <;> simp

theorem startSnapshot_le (hT : 0 < T) (h : d.startSnapshot T = .ok v) :
    v ≤ T ∧ v ∈ d.versions := by
  obtain ⟨larger,rest,heq,-,hv,-⟩ := seekIn_eq_ok.mp ((startSnapshot_eq_ok hT).mp h)
  refine ⟨hv,mem_reverse.mp ?_⟩
  rw [heq]
  simp

/-- The directory has what a commit made as version `v`: a snapshot, or an entry of the log. -/
def Has (d : Disk) (initialVersion : UInt32) (v : ℕ) : Prop :=
  0 < v ∧ (v ∈ d.versions ∨ ∃ i, d.wal.InRange i ∧ walVersion i initialVersion = v)

end Disk

section
variable {v T : ℕ} {iv : UInt32}

theorem le_of_entriesAt_le (hT : iv.toNat ≤ T+1) (h : entriesAt v iv ≤ walIndex T iv) :
    v ≤ T := by
  rw [entriesAt,walIndex,walIndex] at h
  split_ifs at h <;> omega

theorem lt_of_entriesAt_pos (hv : Committable v iv) (hT : T+1 < iv.toNat)
    (h : 0 < entriesAt v iv) : T < v := by
  rw [Committable] at hv
  rw [entriesAt] at h
  split_ifs at h <;> omega

theorem walVersion_entriesAt (hv : Committable v iv) (h : 0 < entriesAt v iv) :
    walVersion (entriesAt v iv) iv = v := by
  rw [walVersion_eq_iff hv h h,walIndex_of_pos]
  rw [entriesAt] at h
  split at h <;> omega

end

namespace System

variable {s : System} {db : DB}

/-- How `Load` with target `T` comes from the trees of a snapshot to the trees it opens, past
`n` entries of the log. -/
structure Reaches (d : Disk) (T : ℕ) (t₀ t : MultiTree) (n : ℕ) : Prop where
  sane : t₀.Sane
  le : t₀.version ≤ T
  mem : 0 < t₀.version → t₀.version ∈ d.versions
  empty : t₀.version = 0 → t₀.trees = []
  caughtUp : CaughtUp t₀ t n
  same : n = 0 → t = t₀
  passed : 0 < n → d.wal.InRange t.position ∧ t.position ≤ walIndex T t.initialVersion
  stopped : n = 0 → t₀.version < T → d.wal.lastIndex ≤ t₀.position

theorem mem_versions_initEmptyDB {d : Disk} {iv : UInt32} {w : ℕ} :
    w ∈ (d.initEmptyDB iv).1.versions ↔ w = 0 ∨ w ∈ d.versions := by
  rw [Disk.initEmptyDB,(Disk.sameDirs_updateCurrentSymlink _ 0).versions]
  exact Disk.mem_versions_putDir

theorem mem_versions_prepare {o : Options} {d : Disk} {w : ℕ}
    (h : w ∈ (DB.prepare o d).1.versions) : w = 0 ∨ w ∈ d.versions := by
  have hcreate : w ∈ (if o.createIfMissing then d.createDBIfNotExist o.initialVersion
      else (d,none)).1.versions → w = 0 ∨ w ∈ d.versions := by
    unfold Disk.createDBIfNotExist
    split
    · split
      · exact mem_versions_initEmptyDB.mp
      · split
        · exact .inr
        · exact mem_versions_initEmptyDB.mp
    · exact .inr
  unfold DB.prepare at h
  split at h
  · exact .inr h
  · split at h <;> rename_i he <;> rw [he] at hcreate
    · exact hcreate h
    · simp only at h
      split at h <;> exact hcreate h

theorem exists_reaches {o : Options} {d : Disk} (hs : s.Reachable)
    (h : DB.load o s.disk = (.ok db,d)) (hT : 0 < o.targetVersion.toNat) :
    ∃ t₀ t n, Reaches s.disk o.targetVersion.toNat t₀ t n ∧ DB.openWith o t = .ok db := by
  obtain ⟨d₁,v,t,hprep,hl,-,ho⟩ := load_eq_ok h
  have hd₁ := rooted_prepare hs.rooted.disk o
  have hsane := sane_prepare hs.ok.disk o
  have hwal := wal_prepare o s.disk
  have hmem := @mem_versions_prepare o s.disk v
  rw [hprep] at hd₁ hsane hwal hmem
  obtain ⟨t₀,hstart,h₀,hc⟩ := Disk.loadTarget_eq_ok.mp hl
  obtain ⟨hle,hv⟩ := Disk.startSnapshot_le hT hstart
  obtain ⟨hversion,-,hempty⟩ := hd₁.loadMultiTree h₀
  have ht₀ := hsane.loadMultiTree h₀
  have hmem : 0 < t₀.version → t₀.version ∈ s.disk.versions := by
    rw [hversion]
    exact fun hpos => (hmem hv).resolve_left (by omega)
  rw [← hversion] at hle hempty
  split at hc
  · rename_i hlt
    rw [hwal] at hc
    obtain ⟨hlast,rfl⟩ | ⟨hlast,hend,t₁,hr,rfl⟩ := (catchupWAL_eq_ok ht₀).mp hc
    · exact ⟨t,t,0,⟨ht₀,hle,hmem,hempty,⟨rfl,rfl,le_rfl,ht₀,rfl⟩,fun _ => rfl,by simp,
        fun _ _ => hlast⟩,ho⟩
    · have hcu := caughtUp_replayFrom ht₀ hr
      have hpos : t₁.position = min (t₀.endIndex s.disk.wal o.targetVersion.toNat)
          s.disk.wal.lastIndex := by
        rw [hcu.position]
        omega
      have hendeq : t₀.endIndex s.disk.wal o.targetVersion.toNat =
          walIndex o.targetVersion.toNat t₁.initialVersion := by
        rw [endIndex,if_neg (by omega),hcu.initialVersion]
      refine ⟨t₀,t₁.updateCommitInfo,_,⟨ht₀,hle,hmem,hempty,⟨hcu.initialVersion,hcu.metadata,
        hcu.version_le,sane_updateCommitInfo hcu.sane,hcu.position⟩,by omega,fun _ => ⟨?_,?_⟩,
        by omega⟩,ho⟩
      · refine inRange_of_replayFrom hr (k := t₁.position) ?_ ?_ <;> omega
      · change t₁.position ≤ walIndex _ t₁.initialVersion
        omega
  · rename_i hge
    subst hc
    exact ⟨t,t,0,⟨ht₀,hle,hmem,hempty,⟨rfl,rfl,le_rfl,ht₀,rfl⟩,fun _ => rfl,by simp,
      fun _ hlt => absurd (.inr hlt) hge⟩,ho⟩

namespace Reaches

variable {d : Disk} {T n : ℕ} {t₀ t : MultiTree}

theorem version_le (h : Reaches d T t₀ t n)
    (hT : t.initialVersion.toNat ≤ T+1 ∨ d.wal.lastIndex = 0) : t.version ≤ T := by
  rcases Nat.eq_zero_or_pos n with rfl | hn
  · rw [h.same rfl]
    exact h.le
  · obtain ⟨⟨hbase,hlast⟩,hend⟩ := h.passed hn
    exact le_of_entriesAt_le (hT.resolve_right (by omega)) hend

/-- Below the initial version the end index wraps around, and the load passes the whole log. -/
theorem lt_version (h : Reaches d T t₀ t n) (hT0 : 0 < T) (hT : T+1 < t.initialVersion.toNat)
    (hlast : d.wal.lastIndex ≠ 0) : T < t.version := by
  have hc := h.caughtUp
  have hle := h.le
  -- Only the empty snapshot is at or below the target.
  have hzero : t₀.version = 0 := by
    refine h.sane.committable.resolve_right fun hiv => ?_
    rw [← hc.initialVersion] at hiv
    omega
  have hpos₀ : t₀.position = 0 := by rw [position,hzero,entriesAt,if_pos rfl]
  have hn : 0 < n := by
    by_contra hn
    have := h.stopped (by omega) (by omega)
    omega
  refine lt_of_entriesAt_pos hc.sane.committable hT ?_
  change 0 < t.position
  rw [hc.position]
  omega

theorem has_version (h : Reaches d T t₀ t n) (hv : 0 < t.version) :
    d.Has t.initialVersion t.version := by
  refine ⟨hv,?_⟩
  rcases Nat.eq_zero_or_pos n with rfl | hn
  · have heq := h.same rfl
    subst heq
    exact .inl (h.mem hv)
  · have hpos : 0 < t.position := by
      rw [h.caughtUp.position]
      omega
    exact .inr ⟨t.position,(h.passed hn).1,walVersion_entriesAt h.caughtUp.sane.committable hpos⟩

end Reaches

theorem isEmpty_openWith {o : Options} {t : MultiTree} (h : DB.openWith o t = .ok db)
    (ht : t.trees = []) : ∀ e ∈ db.mtree.trees, e.tree.isEmpty := by
  have hnew : ∀ iv, (StoreTree.newWithInitialVersion iv).isEmpty = true := by
    intro iv
    unfold StoreTree.newWithInitialVersion
    split <;> rfl
  have hall := @forall_applyUpgrades (fun t => t.isEmpty = true) t
    (o.initialStores.map fun name => { name }) (hnew _) (by simp [ht])
  unfold DB.openWith DB.applyUpgrades at h
  simp only at h
  split at h
  · rename_i hcond
    rw [if_neg (by simpa using hcond.1)] at h
    generalize t.applyUpgrades (o.initialStores.map fun name => { name }) = p at h hall
    obtain ⟨mtree,_ | e⟩ := p <;> cases h
    exact hall
  · cases h
    simp [ht]

/-- A load with a target stays at or below it, and opens empty trees when the directory has
nothing that was committed at or below it, exactly if the target is not below the version before
the initial one or the log is empty. -/
theorem load_le_target_iff {o : Options} {d : Disk} (hs : s.Reachable)
    (h : DB.load o s.disk = (.ok db,d)) (hT : 0 < o.targetVersion.toNat) :
    (db.mtree.version ≤ o.targetVersion.toNat ∧
      ((∀ v ≤ o.targetVersion.toNat, ¬s.disk.Has db.mtree.initialVersion v) →
        ∀ e ∈ db.mtree.trees, e.tree.isEmpty)) ↔
    db.mtree.initialVersion.toNat ≤ o.targetVersion.toNat+1 ∨ s.disk.wal.lastIndex = 0 := by
  obtain ⟨t₀,t,n,hr,ho⟩ := exists_reaches hs h hT
  obtain ⟨htouch,-⟩ := touches_openWith ho
  have hversion := htouch.mtree.version_eq
  have hiv := htouch.mtree.initialVersion
  simp only at hversion hiv
  rw [hversion,hiv]
  constructor
  · rintro ⟨hle,-⟩
    by_contra hcond
    rw [not_or,not_le] at hcond
    exact absurd (hr.lt_version hT hcond.1 hcond.2) (not_lt.mpr hle)
  · intro hcond
    have hle := hr.version_le hcond
    refine ⟨hle,fun hno => isEmpty_openWith ho ?_⟩
    have hzero : t.version = 0 := by
      by_contra hv
      exact hno _ hle (hr.has_version (by omega))
    rcases Nat.eq_zero_or_pos n with rfl | hn
    · have heq := hr.same rfl
      subst heq
      exact hr.empty hzero
    · -- Entries that were passed would have led to a version.
      have hpos := hr.caughtUp.position
      rw [position,hzero,entriesAt,if_pos rfl] at hpos
      omega

theorem ok_of_toOption {α : Type} {x : Except String α} {a : α} (h : x.toOption = some a) :
    x = .ok a := by
  cases x <;> cases h
  rfl

/-- Two commits to a store of a database with initial version 10. -/
def initialTenActs : List Act :=
  [.load {
      createIfMissing := true
      initialVersion := 10
      initialStores := [[120]]
      asyncCommitBuffer := -1 },
    .call (.applyChangeSet [120] [{ key := [1], value := [2] }])] ++ commitActs ++ commitActs ++
  [.call .close]

/-- Loaded at version 5, such a database is at version 11, with trees that are not empty. -/
theorem load_overshoots : ∃ (s : System) (o : Options) (db : DB) (d : Disk), s.Reachable ∧
    DB.load o s.disk = (.ok db,d) ∧ o.targetVersion = 5 ∧ db.mtree.version = 11 ∧
      (∃ e ∈ db.mtree.trees, e.tree.isEmpty = false) ∧
      ∀ v ≤ 5, ¬s.disk.Has db.mtree.initialVersion v := by
  have hex : (exec System.step (fun _ _ => True) initialTenActs {}).any (fun s =>
      s.disk.versions = [0] ∧ (DB.load { targetVersion := 5 } s.disk).1.toOption.any fun db =>
        db.mtree.initialVersion = 10 ∧ db.mtree.version = 11 ∧
          ∃ e ∈ db.mtree.trees, e.tree.isEmpty = false) = true := by
    decide +kernel
  obtain ⟨s,hs,hex⟩ := Run.exists_of_exec hex
  obtain ⟨hversions,hex⟩ := of_decide_eq_true hex
  obtain ⟨db,hload,hdb⟩ := (Option.any_eq_true ..).mp hex
  obtain ⟨hiv,hv,he⟩ := of_decide_eq_true hdb
  refine ⟨s,{ targetVersion := 5 },db,_,hs,Prod.ext (ok_of_toOption hload) rfl,rfl,hv,he,?_⟩
  rintro v hle ⟨hpos,hmem | ⟨i,hi,hw⟩⟩
  · rw [hversions,mem_singleton] at hmem
    omega
  · rw [hiv] at hw
    change i+10-1 = v at hw
    have := hi.1
    omega

/-- Loaded at version 10, it is at version 10. -/
theorem load_le_target_initial : ∃ (s : System) (o : Options) (db : DB) (d : Disk), s.Reachable ∧
    DB.load o s.disk = (.ok db,d) ∧ o.targetVersion = 10 ∧ db.mtree.version ≤ 10 := by
  have hex : (exec System.step (fun _ _ => True) initialTenActs {}).any (fun s =>
      (DB.load { targetVersion := 10 } s.disk).1.toOption.any fun db =>
        db.mtree.initialVersion.toNat ≤ 11) = true := by
    decide +kernel
  obtain ⟨s,hs,hex⟩ := Run.exists_of_exec hex
  obtain ⟨db,hload,hdb⟩ := (Option.any_eq_true ..).mp hex
  have hload : DB.load { targetVersion := 10 } s.disk = (.ok db,_) :=
    Prod.ext (ok_of_toOption hload) rfl
  have hle := (load_le_target_iff hs hload (by decide)).mpr (.inl (of_decide_eq_true hdb))
  exact ⟨s,_,db,_,hs,hload,rfl,hle.1⟩

end System

end Memiavl
