import Memiavl.Reload

/-! The versions of the trees move together with the version of the database. -/
namespace Memiavl

open MultiTree List Transition

namespace StoreTree

theorem toNat_newWithInitialVersion {n : ℕ} (h0 : 0 < n) (h : n ≤ maxUint32) :
    (newWithInitialVersion (UInt32.ofNat n)).version.toNat+1 = n := by
  have hn : (UInt32.ofNat n).toNat = n := by
    rw [UInt32.toNat_ofNat',Nat.mod_eq_of_lt]
    rw [maxUint32] at h
    omega
  unfold newWithInitialVersion
  split
  · rename_i hle
    rw [UInt32.le_iff_toNat_le,hn] at hle
    change 0+1 = n
    change n ≤ 1 at hle
    omega
  · rw [UInt32.toNat_sub_of_le,hn]
    · change n-1+1 = n
      omega
    · rw [UInt32.le_iff_toNat_le,hn]
      exact h0

theorem toNat_setInitialVersion {t : StoreTree} (h0 : t.version = 0) {iv : UInt32}
    (hiv : 1 < iv.toNat) : (t.setInitialVersion iv).version.toNat+1 = iv.toNat := by
  have hle : (1 : UInt32) ≤ iv := by
    rw [UInt32.le_iff_toNat_le]
    exact hiv.le
  unfold setInitialVersion
  rw [if_neg (by rw [h0]; decide),if_neg (UInt32.not_lt.mpr hle)]
  simp only
  rw [UInt32.toNat_sub_of_le _ _ hle]
  change iv.toNat-1+1 = iv.toNat
  omega

/-- The version that is read from a tree's files is the one of their metadata. -/
theorem version_load {f : TreeFiles} {t : StoreTree} (h : load f = .ok t) :
    t.version = UInt32.ofNat (Bytes.getLE ((f.metadata.drop 8).take 4)) := by
  unfold load at h
  cases hs : openSnapshot f with
  | error e =>
    rw [hs] at h
    cases h
  | ok s =>
    have hversion : s.version = UInt32.ofNat (Bytes.getLE ((f.metadata.drop 8).take 4)) := by
      unfold openSnapshot at hs
      simp only at hs
      split_ifs at hs <;> cases hs <;> rfl
    rw [hs] at h
    simp only [bind,Except.bind] at h
    split at h <;> cases h
    exact hversion

theorem version_load_writeTree {t t' : StoreTree} (h : load t.writeTree = .ok t') :
    t'.version = t.version := by
  have hmeta : t.writeTree.metadata = metadataBytes t.version := by
    simp only [writeTree,writeSnapshot,apply_ite TreeFiles.metadata,ite_self]
  rw [version_load h,hmeta]
  exact (getLE_metadata t.version).2.2

end StoreTree

namespace MultiTree

variable {t t' : MultiTree}

/-- Each tree is at the version before the next one, as long as that is a version of a tree. -/
def Lockstep (t : MultiTree) : Prop := nextVersion t.version t.initialVersion ≤ maxUint32 →
  ∀ e ∈ t.trees, e.tree.version.toNat+1 = nextVersion t.version t.initialVersion

section
variable (h : t.Lockstep)
include h

theorem Lockstep.version_eq (hne : t.version ≠ 0) (hlt : t.version < maxUint32) :
    ∀ e ∈ t.trees, e.tree.version.toNat = t.version := by
  have hnext : nextVersion t.version t.initialVersion = t.version+1 := by
    rw [nextVersion,if_neg (by omega)]
  intro e he
  have := h (by omega) e he
  omega

theorem Lockstep.congr (hsame : SameVersion t t')
    (htrees : ∀ e ∈ t'.trees, ∃ e' ∈ t.trees, e'.tree.version = e.tree.version) : t'.Lockstep := by
  intro hle e he
  rw [hsame.version_eq,hsame.initialVersion] at hle ⊢
  obtain ⟨e',he',heq⟩ := htrees e he
  rw [← heq]
  exact h hle e' he'

theorem Lockstep.applyUpgrades (us : List TreeNameUpgrade) : (t.applyUpgrades us).1.Lockstep := by
  have hsame := sameVersion_applyUpgrades t us
  intro hle
  rw [hsame.version_eq,hsame.initialVersion] at hle ⊢
  have hpos := lt_nextVersion t.version t.initialVersion
  exact forall_applyUpgrades (P := fun tree =>
      tree.version.toNat+1 = nextVersion t.version t.initialVersion)
    (StoreTree.toNat_newWithInitialVersion (by omega) hle) (h hle)

theorem Lockstep.applyChangeSet (name : Bytes) (cs : ChangeSet) :
    (t.applyChangeSet name cs).1.Lockstep := by
  refine h.congr (sameVersion_applyChangeSet t name cs) fun e he => ?_
  unfold MultiTree.applyChangeSet at he
  split at he
  · exact ⟨e,he,rfl⟩
  · obtain ⟨k,hk,rfl⟩ := getElem_of_mem he
    simp only [length_modify] at hk
    refine ⟨t.trees[k],getElem_mem hk,?_⟩
    simp only [getElem_modify]
    split <;> simp

theorem Lockstep.applyChangeSets (css : List NamedChangeSet) : (t.applyChangeSets css).1.Lockstep := by
  induction css generalizing t with
  | nil => exact h
  | cons cs css ih =>
    have hcs := h.applyChangeSet cs.name cs.changeset
    unfold MultiTree.applyChangeSets
    split <;> rename_i heq <;> rw [heq] at hcs
    · exact hcs
    · exact ih hcs

theorem Lockstep.applyWALEntry (entry : WALEntry) : (t.applyWALEntry entry).1.Lockstep := by
  have hups := h.applyUpgrades entry.upgrades
  unfold MultiTree.applyWALEntry
  split <;> rename_i heq <;> rw [heq] at hups
  · exact hups
  · exact hups.applyChangeSets _

end

/-- Trees that have not reached the last version are all saved. -/
theorem saveTrees_versions {n : ℕ} (hn : n < maxUint32) {trees : List NamedTree}
    (h : ∀ e ∈ trees, e.tree.version.toNat = n) :
    ∀ e ∈ (saveTrees trees).1, e.tree.version.toNat = n+1 := by
  induction trees with
  | nil => simp [saveTrees]
  | cons e es ih =>
    have he := h e mem_cons_self
    have hsave : e.tree.saveVersion = .ok { e.tree with version := e.tree.version+1 } :=
      StoreTree.saveVersion_eq_ok.mpr ⟨by omega,rfl⟩
    simp only [saveTrees,hsave]
    intro e' he'
    rcases mem_cons.mp he' with rfl | he'
    · change (e.tree.version+1).toNat = n+1
      rw [TreeState.toNat_next (by omega),he]
    · exact ih (fun e' he' => h e' (mem_cons_of_mem _ he')) e' he'

theorem Lockstep.updateCommitInfo (h : t.Lockstep) : t.updateCommitInfo.Lockstep := h

theorem Lockstep.saveVersion (h : t.Lockstep) (update : Bool) : (t.saveVersion update).1.Lockstep := by
  have ha := advances_saveVersion t update
  intro hle e he
  have hne := lt_nextVersion t.version t.initialVersion
  have hnext : nextVersion (t.saveVersion update).1.version (t.saveVersion update).1.initialVersion =
      nextVersion t.version t.initialVersion+1 := by
    rw [ha.version,nextVersion,if_neg (by omega)]
  rw [hnext] at hle ⊢
  have htrees : e ∈ (saveTrees t.trees).1 := by
    unfold MultiTree.saveVersion at he
    simp only at he
    split at he <;> rename_i hs <;> rw [hs]
    · exact he
    · split at he <;> exact he
  have hall := saveTrees_versions (n := nextVersion t.version t.initialVersion-1) (by omega)
    (fun e he => by have := h (by omega) e he; omega) e htrees
  omega

theorem Lockstep.replay (h : t.Lockstep) {entry : WALEntry} (hr : t.replay entry = .ok t') :
    t'.Lockstep := by
  have happ := h.applyWALEntry entry
  unfold MultiTree.replay at hr
  split at hr
  · cases hr
  · rename_i t₁ heq
    rw [heq] at happ
    have hsave := Lockstep.saveVersion happ false
    split at hr <;> cases hr
    rename_i heq
    rwa [heq] at hsave

theorem Lockstep.replayFrom (h : t.Lockstep) {wal : IndexedLog WALEntry} {i n : ℕ}
    (hr : replayFrom wal t i n = .ok t') : t'.Lockstep := by
  induction n generalizing t i with
  | zero =>
    cases hr
    exact h
  | succ n ih =>
    unfold MultiTree.replayFrom at hr
    split at hr
    · cases hr
    · split at hr
      · cases hr
      · rename_i hstep
        exact ih (h.replay hstep) hr

theorem Lockstep.catchupWAL (h : t.Lockstep) (ht : t.Sane) {wal : IndexedLog WALEntry}
    {endVersion : ℕ} (hc : t.catchupWAL wal endVersion = .ok t') : t'.Lockstep := by
  obtain ⟨-,rfl⟩ | ⟨-,-,t₁,hr,rfl⟩ := (catchupWAL_eq_ok ht).mp hc
  · exact h
  · exact (h.replayFrom hr).updateCommitInfo

theorem Lockstep.putInitialVersion (h : t.Lockstep) (h0 : t.version = 0) {iv : UInt32}
    (hiv : (∀ e ∈ t.trees, e.tree.version = 0) ∨ iv = t.initialVersion) :
    (t.putInitialVersion iv).Lockstep := by
  have hnext : nextVersion (t.putInitialVersion iv).version (t.putInitialVersion iv).initialVersion =
      if 1 < iv.toNat then iv.toNat else 1 := by
    change nextVersion t.version iv = _
    simp only [nextVersion,h0,true_and,Nat.zero_add]
  rintro - e he
  rw [hnext]
  by_cases h1 : 1 < iv.toNat
  · rw [if_pos h1]
    simp only [MultiTree.putInitialVersion,if_pos h1,List.mem_map] at he
    obtain ⟨e',he',rfl⟩ := he
    rcases hiv with hzero | rfl
    · exact StoreTree.toNat_setInitialVersion (hzero e' he') h1
    · have hn : nextVersion t.version t.initialVersion = t.initialVersion.toNat := by
        rw [nextVersion,if_pos ⟨h0,h1⟩]
      have hlt := t.initialVersion.toNat_lt
      have hv := h (by rw [hn,maxUint32]; omega) e' he'
      have hpos : 0 < e'.tree.version := by
        rw [UInt32.lt_iff_toNat_lt]
        change 0 < _
        omega
      simp only [StoreTree.setInitialVersion_of_pos hpos]
      omega
  · rw [if_neg h1]
    simp only [MultiTree.putInitialVersion,if_neg h1] at he
    rcases hiv with hzero | rfl
    · rw [hzero e he]
      rfl
    · have hn : nextVersion t.version t.initialVersion = 1 := by
        rw [nextVersion,if_neg (by omega),h0]
      exact (h (by rw [hn]; decide) e he).trans hn

end MultiTree

theorem mem_loadTrees {fs : List (Bytes × TreeFiles)} {trees : List NamedTree}
    (h : loadTrees fs = .ok trees) {e : NamedTree} (he : e ∈ trees) :
    ∃ f ∈ fs, StoreTree.load f.2 = .ok e.tree := by
  induction fs generalizing trees with
  | nil =>
    cases h
    cases he
  | cons f fs ih =>
    rw [loadTrees] at h
    cases ht : StoreTree.load f.2 with
    | error err =>
      rw [ht] at h
      cases h
    | ok tree =>
      cases hts : loadTrees fs with
      | error err =>
        rw [ht,hts] at h
        cases h
      | ok trees₁ =>
        rw [ht,hts] at h
        cases h
        rcases mem_cons.mp he with rfl | he
        · exact ⟨f,mem_cons_self,ht⟩
        · obtain ⟨f',hf',hload⟩ := ih hts he
          exact ⟨f',mem_cons_of_mem _ hf',hload⟩

theorem mem_load {d : SnapshotDir} {t : MultiTree} (h : MultiTree.load d = .ok t) {e : NamedTree}
    (he : e ∈ t.trees) : ∃ f ∈ d.trees, ∃ tree, StoreTree.load f.2 = .ok tree ∧
      (0 < tree.version → e.tree = tree) := by
  unfold MultiTree.load at h
  cases hm : readMetadata d with
  | error err =>
    rw [hm] at h
    cases h
  | ok m =>
    cases hts : loadTrees (d.trees.insertionSort fun a b => a.1 ≤ b.1) with
    | error err =>
      rw [hm,hts] at h
      cases h
    | ok trees =>
      rw [hm,hts] at h
      cases h
      obtain ⟨e',he',heq⟩ : ∃ e' ∈ trees, 0 < e'.tree.version → e.tree = e'.tree := by
        simp only [putInitialVersion] at he
        split at he
        · obtain ⟨e',he',rfl⟩ := List.mem_map.mp he
          exact ⟨e',he',fun hpos => StoreTree.setInitialVersion_of_pos hpos _⟩
        · exact ⟨e,he,fun _ => rfl⟩
      obtain ⟨f,hf,hload⟩ := mem_loadTrees hts he'
      exact ⟨f,(mem_insertionSort _).mp hf,e'.tree,hload,heq⟩

/-- The trees in the files of a snapshot have its version. -/
def InStep (p : ℕ × SnapshotDir) : Prop := p.1 ≠ 0 → p.1 < maxUint32 →
  ∀ f ∈ p.2.trees, ∀ tree, StoreTree.load f.2 = .ok tree → tree.version.toNat = p.1

namespace Disk

variable {d : Disk} {v : ℕ}

/-- All snapshots and temporary directories are in step. -/
def Lockstep (d : Disk) : Prop := ∀ p ∈ d.snapshots ++ d.tmpDirs, InStep p

theorem lockstep_iff : d.Lockstep ↔ d.Dirs InStep InStep :=
  forall_mem_append.trans ⟨fun h => ⟨h.1,h.2⟩,fun h => ⟨h.1,h.2⟩⟩

theorem Lockstep.written (hd : d.Lockstep) {t : MultiTree} (ht : t.Lockstep) :
    InStep (t.version,t.writeSnapshot (oldTrees d.tmpDirs t.version)) := by
  intro hne hlt f hf tree hload
  rcases mem_append.mp hf with hf | hf
  · obtain ⟨e,he,rfl⟩ := List.mem_map.mp hf
    rw [StoreTree.version_load_writeTree hload]
    exact ht.version_eq hne hlt e he
  · obtain ⟨dir,hdir,hf⟩ := mem_oldTrees (mem_of_mem_filter hf)
    exact hd _ (mem_append_right _ hdir) hne hlt f hf tree hload

theorem inStep_zero (dir : SnapshotDir) : InStep (0,dir) := fun h0 => absurd rfl h0

theorem Lockstep.loadMultiTree (hd : d.Lockstep) (hroot : d.Rooted) {t : MultiTree}
    (h : d.loadMultiTree v = .ok t) : t.Lockstep := by
  obtain ⟨hversion,-,hempty⟩ := hroot.loadMultiTree h
  obtain ⟨dir,hdir,hload⟩ := loadMultiTree_eq_ok h
  by_cases h0 : v = 0
  · rintro - e he
    rw [hempty h0] at he
    cases he
  have hnext : nextVersion t.version t.initialVersion = v+1 := by
    rw [nextVersion,if_neg (by omega),hversion]
  intro hle e he
  rw [hnext] at hle ⊢
  obtain ⟨f,hf,tree,htree,heq⟩ := mem_load hload he
  have hv := hd _ (mem_append_left _ hdir) h0 (by simp only; omega) f hf tree htree
  simp only at hv
  rw [heq (by rw [UInt32.lt_iff_toNat_lt,hv]; exact Nat.pos_of_ne_zero h0),hv]

theorem Lockstep.loadTarget (hd : d.Lockstep) (hsane : d.Sane) (hroot : d.Rooted) {T : ℕ}
    {t : MultiTree} (h : d.loadTarget T = .ok (v,t)) : t.Lockstep := by
  obtain ⟨t₀,-,h₀,hc⟩ := loadTarget_eq_ok.mp h
  have ht₀ := hd.loadMultiTree hroot h₀
  split at hc
  · exact ht₀.catchupWAL (hsane.loadMultiTree h₀) hc
  · rwa [hc]

end Disk

structure Rewriter.Lockstep (r : Rewriter) : Prop where
  cloned : r.cloned.Lockstep
  catching : ∀ t, r.stage = .catching t → t.Lockstep
  sending : ∀ t, r.stage = .sending (.ok t) → t.Lockstep

theorem Rewriter.Lockstep.start {t : MultiTree} (ht : t.Lockstep) :
    Rewriter.Lockstep { cloned := t } := ⟨ht,by simp,by simp⟩

structure DB.Lockstep (db : DB) : Prop where
  mtree : db.mtree.Lockstep
  rewriter : ∀ r ∈ db.rewriter, r.Lockstep
  waiting : ∀ v err t, db.phase = .waiting v err t → t.Lockstep

theorem DB.lockstep_applyUpgrades {db : DB} (h : db.mtree.Lockstep) (us : List TreeNameUpgrade) :
    (db.applyUpgrades us).1.mtree.Lockstep := by
  have ht := h.applyUpgrades us
  unfold DB.applyUpgrades
  split
  · exact h
  · split <;> rename_i hu <;> rw [hu] at ht <;> exact ht

theorem DB.lockstep_applyChangeSet {db : DB} (h : db.mtree.Lockstep) (name : Bytes) (cs : ChangeSet) :
    (db.applyChangeSet name cs).1.mtree.Lockstep := by
  unfold DB.applyChangeSet
  split
  · exact h
  · split
    · exact h
    · exact h.applyChangeSet name cs

theorem DB.lockstep_mergeChangeSets {db : DB} (h : db.mtree.Lockstep) (css : List NamedChangeSet) :
    (db.mergeChangeSets css).1.mtree.Lockstep := by
  induction css generalizing db with
  | nil => exact h
  | cons cs css ih =>
    have hcs := lockstep_applyChangeSet h cs.name cs.changeset
    unfold DB.mergeChangeSets
    split <;> rename_i heq <;> rw [heq] at hcs
    · exact hcs
    · exact ih hcs

theorem DB.lockstep_applyChangeSets {db : DB} (h : db.mtree.Lockstep) (css : List NamedChangeSet) :
    (db.applyChangeSets css).1.mtree.Lockstep := by
  unfold DB.applyChangeSets
  split
  · exact h
  · split
    · exact h
    · split
      · exact h.applyChangeSets css
      · exact lockstep_mergeChangeSets h css

/-- After a successful `Commit` each tree has the version of the last commit. -/
def Event.InStep : Event → Prop
  | .returned .commit (.version _) view => view.lastCommitInfo.version < maxUint32 →
      ∀ e ∈ view.trees, e.tree.version.toNat = view.lastCommitInfo.version
  | _ => True

theorem Event.inStep_of_ne {c : Call} (h : c ≠ .commit) (r : Reply) (view : View) :
    (Event.returned c r view).InStep := by
  cases c <;> trivial

namespace System

structure Lockstep (s : System) : Prop where
  disk : s.disk.Lockstep
  db : ∀ db ∈ s.db, db.Lockstep
  trace : ∀ ev ∈ s.trace, ev.InStep

variable {s s' : System} {db : DB}

theorem lockstep_put (hd : s.disk.Lockstep) (htrace : ∀ ev ∈ s.trace, ev.InStep)
    (hdb : db.Lockstep) : (s.put db).Lockstep := by
  refine ⟨hd,?_,htrace⟩
  rintro x ⟨⟩
  exact hdb

theorem lockstep_ret (hd : s.disk.Lockstep) (htrace : ∀ ev ∈ s.trace, ev.InStep)
    (hm : db.mtree.Lockstep) (hr : ∀ r ∈ db.rewriter, r.Lockstep) {c : Call} {r : Reply}
    (hev : (Event.returned c r db.mtree.view).InStep) : (s.ret db c r).Lockstep := by
  refine ⟨hd,?_,?_⟩
  · rintro x ⟨⟩
    exact ⟨hm,hr,by simp⟩
  · intro ev hmem
    rcases mem_append.mp hmem with hmem | hmem
    · exact htrace ev hmem
    · rw [mem_singleton.mp hmem]
      exact hev

theorem lockstep_finishCommit (hd : s.disk.Lockstep) (htrace : ∀ ev ∈ s.trace, ev.InStep)
    (hm : db.mtree.Lockstep) (hr : ∀ r ∈ db.rewriter, r.Lockstep) {v : ℕ} {err : Option String}
    (hv : err = none → db.mtree.version ≠ 0) : (s.finishCommit db v err).Lockstep := by
  have hf := finishes_finishCommit s db v err
  generalize s.finishCommit db v err = s₁ at hf ⊢
  cases hf with
  | failed e => exact lockstep_ret hd htrace hm hr trivial
  | kept => exact lockstep_ret hd htrace hm hr (hm.version_eq (hv rfl))
  | clones _ _ =>
    refine lockstep_ret ?_ ?_ ?_ ?_ ?_
    · exact hd
    · exact htrace
    · exact hm
    · rintro x ⟨⟩
      exact .start hm
    · exact hm.version_eq (hv rfl)

theorem lockstep_finishClose (hs : s.Lockstep) (err : Option String) :
    (s.finishClose err).Lockstep := by
  refine ⟨hs.disk,by simp [finishClose],fun ev hmem => ?_⟩
  rcases mem_append.mp hmem with hmem | hmem
  · exact hs.trace ev hmem
  · rw [mem_singleton.mp hmem]
    trivial

theorem lockstep_edit (hdb : db.Lockstep) {c : Call} {db' : DB} {e : Option String}
    (h : db.edit c = some (db',e)) : db'.mtree.Lockstep := by
  cases c <;> simp only [DB.edit,Option.some.injEq,reduceCtorEq] at h
  case applyUpgrades us =>
    have ht := DB.lockstep_applyUpgrades hdb.mtree us
    rwa [h] at ht
  case applyChangeSets css =>
    have ht := DB.lockstep_applyChangeSets hdb.mtree css
    rwa [h] at ht
  case applyChangeSet name cs =>
    have ht := DB.lockstep_applyChangeSet hdb.mtree name cs
    rwa [h] at ht

/-- `SetInitialVersion` is called only while no tree has a version, or changes nothing, and
snapshots are written apart from each other. -/
def Aligned (s : System) : Act → Prop
  | .call (.setInitialVersion iv) => ∀ db ∈ s.db, (∀ e ∈ db.mtree.trees, e.tree.version = 0) ∨
      UInt32.ofNat (iv % 2^32).toNat = db.mtree.initialVersion
  | a => s.WritesApart a

instance (s : System) (a : Act) : Decidable (s.Aligned a) := by
  unfold Aligned
  split <;> infer_instance

theorem Lockstep.starts (hs : s.Lockstep) (hdb : s.db = some db) {c : Call}
    (ha : s.Aligned (.call c)) (hro : c = .commit → db.opts.readOnly = false)
    (h : Starts s db c s') : s'.Lockstep := by
  have hstep := hs.db db hdb
  have hdirs := Disk.lockstep_iff.mp hs.disk
  cases h with
  | refused r _ hc =>
    refine lockstep_ret hs.disk hs.trace hstep.mtree hstep.rewriter (Event.inStep_of_ne ?_ _ _)
    rintro rfl
    rw [hro rfl] at hc
    cases hc rfl
  | edited he =>
    refine lockstep_ret hs.disk hs.trace (lockstep_edit hstep he) ?_ (Event.inStep_of_ne ?_ _ _)
    · rw [(DB.touches_edit he).rewriter]
      exact hstep.rewriter
    · rintro rfl
      cases he
  | @initialised iv mtree _ h0 hset =>
    have hmtree : mtree.Lockstep := by
      unfold MultiTree.setInitialVersion at hset
      split_ifs at hset
      · cases hset
      · cases hset
      split at hset <;> cases hset
      exact hstep.mtree.putInitialVersion h0 (ha db hdb)
    refine lockstep_ret ?_ ?_ ?_ ?_ (Event.inStep_of_ne (by simp) _ _)
    · exact Disk.lockstep_iff.mpr (hdirs.initEmptyDB (Disk.inStep_zero _))
    · exact hs.trace
    · exact hmtree
    · exact hstep.rewriter
  | saveFailed _ he =>
    have hsave := hstep.mtree.saveVersion true
    rw [he] at hsave
    refine lockstep_ret ?_ ?_ ?_ ?_ trivial
    · exact hs.disk
    · exact hs.trace
    · exact hsave
    · exact hstep.rewriter
  | sends _ he _ | writes _ he _ =>
    have hsave := hstep.mtree.saveVersion true
    rw [he] at hsave
    refine @lockstep_put { s with trace := _ } _ hs.disk ?_ ⟨hsave,hstep.rewriter,by simp⟩
    intro ev hmem
    rcases mem_append.mp hmem with hmem | hmem
    · exact hs.trace ev hmem
    · rw [mem_singleton.mp hmem]
      trivial
  | rewrites _ =>
    refine lockstep_ret ?_ ?_ ?_ ?_ (Event.inStep_of_ne (by simp) _ _)
    · exact Disk.lockstep_iff.mpr
        (hdirs.rewriteSnapshot (fun _ _ h => h) (hs.disk.written hstep.mtree))
    · exact hs.trace
    · exact hstep.mtree
    · exact hstep.rewriter
  | clones _ _ =>
    refine lockstep_ret ?_ ?_ ?_ ?_ (Event.inStep_of_ne (by simp) _ _)
    · exact hs.disk
    · exact hs.trace
    · exact hstep.mtree
    · rintro x ⟨⟩
      exact .start hstep.mtree
  | closes _ hphase =>
    refine lockstep_put hs.disk hs.trace ⟨hstep.mtree,hstep.rewriter,?_⟩
    rcases hphase with ⟨-,rfl⟩ | ⟨-,rfl⟩ <;> simp
  | awaits _ _ => exact lockstep_put hs.disk hs.trace ⟨hstep.mtree,hstep.rewriter,by simp⟩
  | ends _ _ => exact lockstep_finishClose hs _

theorem joinErrors_ne_none (a : Option String) (b : String) : joinErrors a (some b) ≠ none := by
  cases a <;> simp [joinErrors]

theorem Lockstep.proceeds (hok : s.Ok) (hroot : s.Rooted) (hs : s.Lockstep) (hdb : s.db = some db)
    {f : Option ℕ} (h : Proceeds s db f s') : s'.Lockstep := by
  have hstep := hs.db db hdb
  have hphaseOk := (hok.db db hdb).phase
  cases h with
  | sent _ _ _ | awaits _ _ _ _ | checked _ _ | quit _ _ _ =>
    exact lockstep_put hs.disk hs.trace ⟨hstep.mtree,hstep.rewriter,by simp⟩
  | broke _ _ =>
    refine lockstep_ret ?_ ?_ ?_ ?_ trivial
    · exact hs.disk
    · exact hs.trace
    · exact hstep.mtree
    · exact hstep.rewriter
  | outOfOrder _ _ => exact lockstep_ret hs.disk hs.trace hstep.mtree hstep.rewriter trivial
  | written _ _ =>
    refine lockstep_put ?_ ?_ ⟨?_,?_,by simp⟩
    · exact hs.disk
    · exact hs.trace
    · exact hstep.mtree
    · exact hstep.rewriter
  | passed hphase _ =>
    rw [DB.PhaseOk,hphase] at hphaseOk
    refine lockstep_finishCommit hs.disk hs.trace hstep.mtree hstep.rewriter fun _ => ?_
    rw [hphaseOk.2.version]
    exact hphaseOk.2.ne_zero
  | notRewritten _ _ _ =>
    refine lockstep_finishCommit ?_ ?_ ?_ ?_ fun he => absurd he (joinErrors_ne_none _ _)
    · exact hs.disk
    · exact hs.trace
    · exact hstep.mtree
    · simp
  | dropped hphase _ _ =>
    rw [DB.PhaseOk,hphase] at hphaseOk
    refine lockstep_finishCommit ?_ ?_ ?_ ?_ fun _ => ?_
    · exact hs.disk
    · exact hs.trace
    · exact hstep.mtree
    · simp
    · rw [hphaseOk.2.version]
      exact hphaseOk.2.ne_zero
  | received _ hr hstage =>
    refine lockstep_put hs.disk hs.trace ⟨hstep.mtree,by simp,?_⟩
    rintro v err t ⟨⟩
    exact (hstep.rewriter _ hr).sending _ hstage
  | notCaughtUp _ _ _ =>
    exact lockstep_finishCommit hs.disk hs.trace hstep.mtree hstep.rewriter
      fun he => absurd he (joinErrors_ne_none _ _)
  | @notReplayed f v err t t₁ mtree e hphase _ hc ha =>
    rw [DB.PhaseOk,hphase] at hphaseOk
    have hmtree := ((hstep.waiting v err t hphase).catchupWAL hphaseOk.2.2 hc).applyWALEntry db.pendingLog
    rw [ha] at hmtree
    refine lockstep_finishCommit ?_ ?_ ?_ ?_ fun he => absurd he (joinErrors_ne_none _ _)
    · exact hs.disk
    · exact hs.trace
    · exact hmtree
    · exact hstep.rewriter
  | @switched f v err t t₁ mtree hphase _ hc ha =>
    rw [DB.PhaseOk,hphase] at hphaseOk
    have hmtree := ((hstep.waiting v err t hphase).catchupWAL hphaseOk.2.2 hc).applyWALEntry db.pendingLog
    rw [ha] at hmtree
    exact lockstep_put hs.disk hs.trace ⟨hmtree,hstep.rewriter,by simp⟩
  | prunes hphase _ =>
    refine lockstep_finishCommit ?_ ?_ ?_ ?_ fun _ => ?_
    · exact hs.disk
    · exact hs.trace
    · exact hstep.mtree
    · exact hstep.rewriter
    · exact ((hroot.db db hdb).pruning _ _ hphase).2
  | waited _ _ _ =>
    refine lockstep_ret ?_ ?_ ?_ ?_ (Event.inStep_of_ne (by simp) _ _)
    · exact hs.disk
    · exact hs.trace
    · exact hstep.mtree
    · exact hstep.rewriter
  | closed _ _ _ _ | ends _ => exact lockstep_finishClose hs _

theorem Lockstep.rewrites (hok : s.Ok) (hroot : s.Rooted) (hs : s.Lockstep) (hdb : s.db = some db)
    {d : Disk} {r r' : Rewriter} (hr : db.rewriter = some r) (h : Rewrites s.disk r d r') :
    Lockstep { s with disk := d, db := some { db with rewriter := some r' } } := by
  have hstep := hs.db db hdb
  have hrw := hstep.rewriter r hr
  have hdirs := Disk.lockstep_iff.mp hs.disk
  obtain ⟨hd,hr'⟩ : d.Lockstep ∧ r'.Lockstep := by
    rw [Disk.lockstep_iff]
    cases h with
    | wrote _ => exact ⟨hdirs.writeTmp (hs.disk.written hrw.cloned),hrw.cloned,by simp,by simp⟩
    | cancelled _ => exact ⟨hdirs.dropTmp _,hrw.cloned,by simp,by simp⟩
    | renamed _ hd => exact ⟨hdirs.renameTmp (fun _ _ h => h) hd,hrw.cloned,by simp,by simp⟩
    | linked _ hd => exact ⟨hdirs.same (Disk.sameDirs_linkTmp hd),hrw.cloned,by simp,by simp⟩
    | switched _ hd => exact ⟨hdirs.same (Disk.sameDirs_renameLink hd),hrw.cloned,by simp,by simp⟩
    | failed | notLoaded _ _ => exact ⟨hdirs,hrw.cloned,by simp,by simp⟩
    | @loaded t _ hl =>
      refine ⟨hdirs,hrw.cloned,?_,by simp⟩
      rintro t' ⟨⟩
      unfold Disk.loadCurrent at hl
      split at hl
      · cases hl
      · exact hs.disk.loadMultiTree hroot.disk hl
    | @caughtUp t hstage =>
      refine ⟨hdirs,hrw.cloned,by simp,?_⟩
      intro t' ht'
      have hsane := ((hok.db db hdb).base.rewriter r hr).catching t hstage
      exact (hrw.catching t hstage).catchupWAL hsane (RewriteStage.sending.inj ht')
  refine ⟨hd,?_,hs.trace⟩
  rintro x ⟨⟩
  refine ⟨hstep.mtree,?_,hstep.waiting⟩
  rintro x ⟨⟩
  exact hr'

theorem Lockstep.prunes {p : Pruner} (hs : s.Lockstep) (h : Prunes s p s') : s'.Lockstep := by
  have hdirs := Disk.lockstep_iff.mp hs.disk
  cases h with
  | ended | listed _ _ _ | panics _ _ => exact ⟨hs.disk,hs.db,hs.trace⟩
  | removed _ => exact ⟨Disk.lockstep_iff.mpr (hdirs.removeSnapshot _),hs.db,hs.trace⟩
  | truncated _ _ => exact ⟨Disk.lockstep_iff.mpr (hdirs.truncateWAL _),hs.db,hs.trace⟩

theorem lockstep_prepare {d : Disk} (hd : d.Lockstep) (o : Options) : (DB.prepare o d).1.Lockstep :=
  Disk.lockstep_iff.mpr ((Disk.lockstep_iff.mp hd).prepare (Disk.inStep_zero _))

theorem lockstep_disk {d : Disk} (hd : d.Lockstep) (o : Options) : (DB.load o d).2.Lockstep :=
  Disk.lockstep_iff.mpr ((Disk.lockstep_iff.mp hd).load (Disk.inStep_zero _))

theorem lockstep_load {d d' : Disk} (hd : d.Lockstep) (hsane : d.Sane) (hroot : d.Rooted)
    {o : Options} (h : DB.load o d = (.ok db,d')) : db.Lockstep := by
  obtain ⟨d₁,v,mtree,hprep,htarget,-,hopen⟩ := load_eq_ok h
  have hd₁ := lockstep_prepare hd o
  have hsane₁ := sane_prepare hsane o
  have hroot₁ := rooted_prepare hroot o
  rw [hprep] at hd₁ hsane₁ hroot₁
  have hmtree := hd₁.loadTarget hsane₁ hroot₁ htarget
  obtain ⟨htouch,hphase⟩ := touches_openWith hopen
  refine ⟨?_,by simp [htouch.rewriter],by simp [hphase]⟩
  have hedit := @DB.lockstep_applyUpgrades { opts := o, mtree } hmtree
    (o.initialStores.map fun name => { name })
  unfold DB.openWith at hopen
  simp only at hopen
  split at hopen
  · split at hopen <;> rename_i heq <;> rw [heq] at hedit <;> cases hopen
    exact hedit
  · cases hopen
    exact hmtree

theorem Lockstep.step (hok : s.Ok) (hroot : s.Rooted) (hs : s.Lockstep) {a : Act}
    (ha : s.Aligned a) (h : s.step a = some s') : s'.Lockstep := by
  cases turns_of_step h with
  | @loaded o db d hdb _ hl =>
    have hd := lockstep_disk hs.disk o
    rw [hl] at hd
    refine ⟨hd,?_,hs.trace⟩
    rintro x ⟨⟩
    exact lockstep_load hs.disk hok.disk hroot.disk hl
  | @notLoaded o e d hdb _ hl =>
    have hd := lockstep_disk hs.disk o
    rw [hl] at hd
    exact ⟨hd,hs.db,hs.trace⟩
  | @starts c db s' hdb hidle hstart =>
    by_cases hro : c = .commit ∧ db.opts.readOnly = true
    · obtain ⟨rfl,hro⟩ := hro
      have heq : s.step (.call .commit) = some (s.ret db .commit (.error errReadOnly)) := by
        simp [System.step,hdb,hidle,startCall,commit,hro]
      rw [heq] at h
      cases h
      exact lockstep_ret hs.disk hs.trace (hs.db db hdb).mtree (hs.db db hdb).rewriter trivial
    · refine hs.starts hdb ha (fun hc => ?_) hstart
      simpa [hc] using hro
  | proceeds hdb hp => exact hs.proceeds hok hroot hdb hp
  | writes hdb _ _ =>
    have hstep := hs.db _ hdb
    refine ⟨hs.disk,?_,hs.trace⟩
    rintro x ⟨⟩
    exact ⟨hstep.mtree,hstep.rewriter,hstep.waiting⟩
  | rewrites hdb hr hrw => exact hs.rewrites hok hroot hdb hr hrw
  | prunes _ hprune => exact hs.prunes hprune
  | crashed keep => exact ⟨hs.disk,by simp [endsWith],hs.trace⟩
  | interrupted hp =>
    have hd := (Disk.lockstep_iff.mp hs.disk).points (fun _ => Disk.inStep_zero _)
      (fun _ _ _ _ h => h) (fun db hdb => hs.disk.written (hs.db db hdb).mtree) hp
    exact ⟨Disk.lockstep_iff.mpr ⟨hd.snapshots,hd.tmpDirs⟩,by simp [endsWith],hs.trace⟩

theorem lockstep_of_run (hrun : Run System.step Aligned {} s) :
    s.Ok ∧ s.Rooted ∧ s.Lockstep := by
  refine hrun.invariant (I := fun t => t.Ok ∧ t.Rooted ∧ t.Lockstep) ?_ ?_
  · exact ⟨Reachable.ok .refl,Reachable.rooted .refl,by simp [Disk.Lockstep],by simp,by simp⟩
  · rintro t a t' ⟨hok,hroot,ht⟩ ha hstep
    exact ⟨hok.step hstep,hroot.step hok hstep,ht.step hok hroot ha hstep⟩

/-- In every run in which `SetInitialVersion` comes before all trees have a version, the trees are
at the version of the last commit when `Commit` returns, and again after every `Load`. -/
theorem versions_in_lockstep (hrun : Run System.step Aligned {} s) :
    (∀ v view, Event.returned .commit (.version v) view ∈ s.trace →
      view.lastCommitInfo.version < maxUint32 →
      ∀ e ∈ view.trees, e.tree.version.toNat = view.lastCommitInfo.version) ∧
    ∀ o db d, DB.load o s.disk = (.ok db,d) → db.mtree.version ≠ 0 →
      db.mtree.version < maxUint32 → ∀ e ∈ db.mtree.trees, e.tree.version.toNat = db.mtree.version := by
  obtain ⟨hok,hroot,hs⟩ := lockstep_of_run hrun
  refine ⟨fun v view hmem => hs.trace _ hmem,fun o db d hload => ?_⟩
  exact (lockstep_load hs.disk hok.disk hroot.disk hload).mtree.version_eq

/-- A store that is there from the start, with an initial version that is set before the first
commit. -/
theorem versions_in_lockstep_initial : ∃ (s : System) (db : DB) (d : Disk) (view : View),
    Run System.step Aligned {} s ∧
      Event.returned .commit (.version 10) view ∈ s.trace ∧
      (view.trees ≠ [] ∧ ∀ e ∈ view.trees, e.tree.version.toNat = view.lastCommitInfo.version) ∧
      DB.load {} s.disk = (.ok db,d) ∧ ∀ e ∈ db.mtree.trees, e.tree.version.toNat = 10 := by
  have hex : (exec System.step Aligned
      ([.load { createIfMissing := true, initialStores := [[120]], asyncCommitBuffer := -1 },
        .call (.setInitialVersion 10)] ++ commitActs ++ [.call .close]) {}).any (fun s =>
      (∃ view ∈ s.trace.filterMap (committedView? 10), view.trees ≠ [] ∧
        view.lastCommitInfo.version < maxUint32) ∧
      (DB.load {} s.disk).1.toOption.any fun db => db.mtree.version = 10) = true := by
    decide +kernel
  obtain ⟨s,hrun,hex⟩ := Run.exists_of_exec hex
  obtain ⟨⟨view,hview,hne,hlt⟩,hex⟩ := of_decide_eq_true hex
  obtain ⟨db,hload,hv⟩ := (Option.any_eq_true ..).mp hex
  have hload : DB.load {} s.disk = (.ok db,_) := Prod.ext (ok_of_toOption hload) rfl
  have hv : db.mtree.version = 10 := of_decide_eq_true hv
  have hmem := mem_trace_of_view hview
  obtain ⟨hcommit,hreload⟩ := versions_in_lockstep hrun
  refine ⟨s,db,_,view,hrun,hmem,⟨hne,hcommit 10 view hmem hlt⟩,hload,fun e he => ?_⟩
  rw [← hv]
  exact hreload {} db _ hload (by omega) (by rw [hv]; decide) e he

/-- A second initial version does not reach the trees that have one, and a store that is added
after version `2^32-1` starts from version 0. -/
theorem versions_out_of_step :
    (∃ (s : System) (view : View), s.Reachable ∧
      Event.returned .commit (.version 20) view ∈ s.trace ∧ view.lastCommitInfo.version = 20 ∧
      ∃ e ∈ view.trees, e.tree.version = 10) ∧
    ∃ (s : System) (view : View), s.Reachable ∧
      Event.returned .commit (.version (2^32)) view ∈ s.trace ∧
      view.lastCommitInfo.version = 2^32 ∧ ∃ e ∈ view.trees, e.tree.version = 1 := by
  have htwice : (exec System.step (fun _ _ => True)
      ([.load { createIfMissing := true, initialStores := [[120]], asyncCommitBuffer := -1 },
        .call (.setInitialVersion 10),.call (.setInitialVersion 20)] ++ commitActs) {}).any (fun s =>
      ∃ view ∈ s.trace.filterMap (committedView? 20), view.lastCommitInfo.version = 20 ∧
        ∃ e ∈ view.trees, e.tree.version = 10) = true := by
    decide +kernel
  have hlate : (exec System.step (fun _ _ => True)
      ([.load { createIfMissing := true, initialVersion := 4294967295, asyncCommitBuffer := -1 }] ++
        commitActs ++ [.call (.applyUpgrades [{ name := [120] }])] ++ commitActs) {}).any (fun s =>
      ∃ view ∈ s.trace.filterMap (committedView? (2^32)), view.lastCommitInfo.version = 2^32 ∧
        ∃ e ∈ view.trees, e.tree.version = 1) = true := by
    decide +kernel
  constructor
  · obtain ⟨s,hs,hex⟩ := Run.exists_of_exec htwice
    obtain ⟨view,hview,hv,he⟩ := of_decide_eq_true hex
    exact ⟨s,view,hs,mem_trace_of_view hview,hv,he⟩
  · obtain ⟨s,hs,hex⟩ := Run.exists_of_exec hlate
    obtain ⟨view,hview,hv,he⟩ := of_decide_eq_true hex
    exact ⟨s,view,hs,mem_trace_of_view hview,hv,he⟩

end System

end Memiavl
