import Memiavl.Lockstep
import Memiavl.WalFailure

/-! What a snapshot of a version holds. -/
namespace Memiavl

open MultiTree Transition

namespace System

variable {s : System} {h : History} {k v : ℕ} {t : MultiTree}

/-- Trees that were read from the directory of version `v` are those that `Commit` returned for
it, and the next entry of the log leads from them to the next version. -/
structure Holds (s : System) (v : ℕ) (t : MultiTree) : Prop where
  version : t.version = v
  info : t.lastCommitInfo = t.buildCommitInfo v
  committed : ∀ view, Event.returned .commit (.version v) view ∈ s.trace → t.view = view
  next : ∀ e ∈ s.disk.wal.read (t.position+1), ∃ t', t.replay e = .ok t' ∧ t'.version = v+1 ∧
    ∀ view, Event.returned .commit (.version (v+1)) view ∈ s.trace → t'.updateCommitInfo.view = view

/-- A directory with exactly what was committed at version `v`. -/
def Stored (s : System) (v : ℕ) (dir : SnapshotDir) : Prop :=
  ∃ t, MultiTree.load dir = .ok t ∧ s.Holds v t

theorem view_of_event (hv : h.Valid) (htells : ∀ ev ∈ s.trace, h.Tells ev) (ht : h.Shows k t)
    {view : View} (hev : Event.returned .commit (.version t.version) view ∈ s.trace) :
    t.view = view := by
  obtain ⟨k',t',ht',hversion,-,hview⟩ := htells _ hev
  have hk : k' = k := by
    rw [← ht'.position hv,← ht.position hv,position,position,hversion,ht'.initialVersion hv,
      ht.initialVersion hv]
  subst hk
  rw [← hview]
  exact ht.view_eq ht'

theorem replay_next (hv : h.Valid) (ht : h.Shows k t) {e : WALEntry}
    (he : h.entries[k]? = some e) :
    ∃ t', t.replay e = .ok t' ∧ h.Shows (k+1) t'.updateCommitInfo := by
  obtain ⟨hlt,-⟩ := List.getElem?_eq_some_iff.mp he
  obtain ⟨t₁,ht₁⟩ := hv.exists_at (Nat.succ_le_iff.mpr hlt)
  have hr := (ht.state.succ he).mp ht₁
  rw [bare_replay] at hr
  cases ht' : t.replay e with
  | error err =>
    rw [ht'] at hr
    cases hr
  | ok t' =>
    rw [ht'] at hr
    obtain rfl : t'.bare = t₁ := Except.ok.inj hr
    exact ⟨t',rfl,ht₁,rfl,((advances_replay ht').sane (ht.sane hv)).snapshot⟩

theorem holds_of_shows (hv : h.Valid) (htells : ∀ ev ∈ s.trace, h.Tells ev)
    {flight : List WalEntry} (hc : h.Carries s.disk.wal flight) (ht : h.Shows k t)
    (hne : t.version ≠ 0) : s.Holds t.version t where
  version := rfl
  info := ht.info
  committed _ := view_of_event hv htells ht
  next e he := by
    rw [ht.position hv] at he
    obtain ⟨hbase,hlast⟩ := IndexedLog.inRange_of_read he
    have hentry : h.entries[k]? = some e := by
      rw [← hc.read_eq (by omega) (by omega)]
      exact he
    obtain ⟨t',hr,ht'⟩ := replay_next hv ht hentry
    have hversion : t'.version = t.version+1 := by
      rw [(advances_replay hr).version,nextVersion,if_neg (by omega)]
    refine ⟨t',hr,hversion,fun view hev => view_of_event hv htells ht' ?_⟩
    rwa [← hversion] at hev

end System

namespace MultiTree

variable {t t' : MultiTree}

theorem Saved.applyWALEntry (ht : t.Saved) (hp : t.Proper) (hne : t.version ≠ 0)
    (hlt : t.version < maxUint32) {entry : WALEntry} (h : t.applyWALEntry entry = (t',none)) :
    t'.Saved := by
  obtain ⟨t₁,hups,-,-,rfl⟩ := (applyWALEntry_eq_ok hp).mp h
  have hnext : nextVersion t.version t.initialVersion = t.version+1 := by
    rw [nextVersion,if_neg (by omega)]
  have hnew := StoreTree.toNat_newWithInitialVersion (n := t.version+1) (by omega) (by omega)
  have hsaved := @forall_applyUpgrades (fun tree => 0 < tree.version) t entry.upgrades (by
    rw [hnext,UInt32.lt_iff_toNat_lt]
    change 0 < _
    omega) ht
  rw [hups] at hsaved
  intro e he
  obtain ⟨e',he',rfl⟩ := List.mem_map.mp he
  simp only [StoreTree.version_applyChangeSet]
  exact hsaved e' he'

end MultiTree

namespace DB

variable {db : DB} {st : MultiTree}

theorem Follows.load_writeSnapshot (hf : db.Follows st) (hst : st.Proper) (hsaved : st.Saved)
    (hne : st.version ≠ 0) (hlt : st.version < maxUint32) (hfits : db.mtree.Fits) :
    MultiTree.load (db.mtree.writeSnapshot []) =
      .ok { db.mtree with metadata := ⟨db.mtree.lastCommitInfo,db.mtree.initialVersion.toNat⟩ } := by
  have hproper : db.mtree.Proper := (hst.applyWALEntry hf.applied).congr (bare_bare _)
  have hsaved' : db.mtree.bare.Saved := hsaved.applyWALEntry hst hne hlt hf.applied
  exact MultiTree.load_writeSnapshot hproper hsaved' hfits (by simp)

end DB

namespace Disk

variable {d d' : Disk} {t : MultiTree}

theorem rewriteSnapshot_eq_ok (h : d.rewriteSnapshot t = (d',none)) :
    t.version ∉ d.versions ∧ d'.current = some t.version ∧ d'.wal = d.wal ∧
      (t.version,t.writeSnapshot (oldTrees d.tmpDirs t.version)) ∈ d'.snapshots := by
  unfold rewriteSnapshot at h
  simp only at h
  split at h
  · cases h
  · rename_i d₁ hrename
    obtain ⟨dir,hl,hnew,rfl⟩ := renameTmp_eq_some.mp hrename
    have hdir : dir = t.writeSnapshot (oldTrees d.tmpDirs t.version) := by
      obtain hp | ⟨-,hne⟩ := mem_putDir_iff.mp (mem_of_lookup hl)
      · exact congrArg Prod.snd hp
      · exact absurd rfl hne
    have hd := updateCurrentSymlink_eq_ok h
    subst hd hdir
    exact ⟨hnew,rfl,rfl,mem_putDir_iff.mpr (.inl rfl)⟩

end Disk

namespace System

variable {s s' : System} {h : History} {db : DB} {k : ℕ} {t st : MultiTree}

theorem step_rewriteSnapshot (hdb : s.db = some db)
    (hstep : s.step (.call .rewriteSnapshot) = some s')
    (hret : s'.Returned .rewriteSnapshot (· = .done)) : db.phase = .idle ∧
      (s.disk.rewriteSnapshot db.mtree).2 = none ∧
      s' = { s with disk := (s.disk.rewriteSnapshot db.mtree).1 }.ret db .rewriteSnapshot .done := by
  simp only [step,hdb,Option.bind_eq_bind,Option.bind_some,Option.ite_none_right_eq_some,
    Option.some.injEq,startCall] at hstep
  obtain ⟨hidle,rfl⟩ := hstep
  obtain ⟨-,r,view,hlast,rfl⟩ := hret
  split at hlast
  · simp [ret] at hlast
  · rename_i hro
    rw [if_neg hro]
    have hnone : (s.disk.rewriteSnapshot db.mtree).2 = none := by
      cases he : (s.disk.rewriteSnapshot db.mtree).2 with
      | none => rfl
      | some e => simp [ret,he,Reply.ofError] at hlast
    exact ⟨hidle,hnone,by rw [hnone]; rfl⟩

theorem Remembers.exists_event (hs : s.Remembers h []) (h0 : h.start.version = 0)
    (hdb : s.db = some db) (hidle : db.phase = .idle) (hne : db.mtree.version ≠ 0)
    (hst : h.At db.mtree.position st) (hversion : db.mtree.version = st.version) :
    ∃ view, Event.returned .commit (.version db.mtree.version) view ∈ s.trace ∧
      view.trees = st.trees := by
  have hv := hs.faithful.valid
  have hk : 0 < db.mtree.position := by
    by_contra hzero
    rw [Nat.eq_zero_of_not_pos hzero] at hst
    obtain rfl : h.start = st := Except.ok.inj hst.2
    exact hne (hversion.trans h0)
  obtain ⟨t,view,ht,hev⟩ | ⟨x,hx,hcom,-⟩ := hs.told _ hk hst.1
  · have hbare := ht.state.unique hst
    have htv : t.version = db.mtree.version := by
      rw [hversion,← hbare,version_bare]
    refine ⟨view,htv ▸ hev,?_⟩
    rw [← view_of_event hv hs.tells ht hev,← hbare]
    rfl
  · rw [hdb] at hx
    cases hx
    rw [hidle] at hcom
    exact hcom.elim

/-- A snapshot of trees in which nothing has changed since the last commit. -/
theorem shows_of_trees (hv : h.Valid) (hst : h.At k st)
    (hinfo : db.mtree.lastCommitInfo = st.buildCommitInfo st.version) (hf : db.Follows st)
    (htrees : db.mtree.trees = st.trees) : h.Shows k { db.mtree with
      metadata := ⟨db.mtree.lastCommitInfo,db.mtree.initialVersion.toNat⟩ } := by
  have hver := hv.version hst
  have hsame := sameVersion_applyWALEntry st db.pendingLog
  rw [hf.applied] at hsame
  have hproper : db.mtree.Proper := (hver.proper.applyWALEntry hf.applied).congr (bare_bare _)
  have hbare : db.mtree.bare = st := by
    rw [← hver.bare,bare_eq_iff]
    refine ⟨hsame.initialVersion,htrees,?_,hsame.version_eq⟩
    rw [hproper.indexed.index,hver.proper.indexed.index,htrees]
  refine ⟨?_,?_,le_refl _⟩
  · change h.At k db.mtree.bare
    rwa [hbare]
  · change db.mtree.lastCommitInfo = db.mtree.buildCommitInfo db.mtree.version
    rw [hinfo,← hbare]
    rfl

/-- A version of the history has been returned by a `Commit`, or is being committed. -/
theorem Remembers.told_version (hs : s.Remembers h []) (h0 : h.start.version = 0)
    (ht : h.Shows k t) (hne : t.version ≠ 0) :
    (∃ view, Event.returned .commit (.version t.version) view ∈ s.trace) ∨
      ∃ db ∈ s.db, db.phase.Committing ∧ db.mtree.version = t.version := by
  have hk : 0 < k := by
    by_contra hzero
    have hstart := ht.state
    rw [Nat.eq_zero_of_not_pos hzero] at hstart
    have heq : h.start = t.bare := Except.ok.inj hstart.2
    rw [heq] at h0
    exact hne h0
  obtain ⟨t',view,ht',hev⟩ | ⟨db,hdb,hcom,hposition⟩ := hs.told k hk ht.state.1
  · obtain ⟨-,-,-,hversion⟩ := bare_eq_iff.mp (ht'.state.unique ht.state)
    exact .inl ⟨view,hversion ▸ hev⟩
  · obtain ⟨st,hst,-,-,hbare⟩ := (hs.faithful.db db hdb).state
    rw [hposition,← hbare hcom] at hst
    obtain ⟨-,-,-,hversion⟩ := bare_eq_iff.mp (hst.unique ht.state)
    exact .inr ⟨db,hdb,hcom,hversion⟩

section
variable (hs : s.Remembers h []) (h0 : h.start.version = 0) (hdb : s.db = some db)
  (hfits : db.mtree.Fits) (hlt : db.mtree.version < maxUint32)
include hs h0 hdb hfits hlt

/-- The open trees, written to an empty directory, are what was committed exactly if nothing has
changed since the last commit, also for a state in which more has been returned. -/
theorem Remembers.stored_iff (hidle : db.phase = .idle) (hne : db.mtree.version ≠ 0)
    (htrace : s.trace ⊆ s'.trace) (htells : ∀ ev ∈ s'.trace, h.Tells ev)
    (hwal : s'.disk.wal = s.disk.wal) :
    ∃ view, Event.returned .commit (.version db.mtree.version) view ∈ s.trace ∧
      (s'.Stored db.mtree.version (db.writeSnapshot []) ↔ db.mtree.trees = view.trees) := by
  have hv := hs.faithful.valid
  obtain ⟨st,hst,hinfo,hfollows,-⟩ := (hs.faithful.db db hdb).state
  have hf := hfollows (by rw [hidle]; rfl)
  have hver := hv.version hst
  have hversion : db.mtree.version = st.version := by
    have hsame := sameVersion_applyWALEntry st db.pendingLog
    rw [hf.applied] at hsame
    exact hsame.version_eq
  obtain ⟨view,hev,hview⟩ := hs.exists_event h0 hdb hidle hne hst hversion
  have hload := hf.load_writeSnapshot hver.proper hver.saved (hversion ▸ hne)
    (hversion ▸ hlt) hfits
  refine ⟨view,hev,?_,?_⟩
  · rintro ⟨t,ht,hholds⟩
    rw [DB.writeSnapshot,hload] at ht
    cases ht
    exact congrArg View.trees (hholds.committed view (htrace hev))
  · intro htrees
    have hshows := shows_of_trees hv hst hinfo hf (htrees.trans hview)
    have hcarries : h.Carries s'.disk.wal s.flight := by
      rw [hwal]
      exact hs.faithful.flight
    exact ⟨_,hload,holds_of_shows hv htells hcarries hshows hne⟩

theorem Remembers.rewriteSnapshot (hroot : s.Rooted)
    (hstep : s.step (.call .rewriteSnapshot) = some s')
    (hret : s'.Returned .rewriteSnapshot (· = .done))
    (hclean : db.mtree.version ∉ s.disk.tmpDirs.map Prod.fst) :
    ∃ dir view, (db.mtree.version,dir) ∈ s'.disk.snapshots ∧
      s'.disk.current = some db.mtree.version ∧
      Event.returned .commit (.version db.mtree.version) view ∈ s.trace ∧
      (s'.Stored db.mtree.version dir ↔ db.mtree.trees = view.trees) := by
  obtain ⟨hidle,hnone,rfl⟩ := step_rewriteSnapshot hdb hstep hret
  obtain ⟨hnew,hcurrent,hwal,hmem⟩ :=
    @Disk.rewriteSnapshot_eq_ok s.disk (s.disk.rewriteSnapshot db.mtree).1 _ (Prod.ext rfl hnone)
  have hne : db.mtree.version ≠ 0 := fun hzero =>
    hnew (hzero ▸ ((hroot.db db hdb).mtree hzero).1)
  have hold : Disk.oldTrees s.disk.tmpDirs db.mtree.version = [] := by
    unfold Disk.oldTrees
    cases hl : s.disk.tmpDirs.lookup db.mtree.version with
    | none => rfl
    | some dir => exact absurd (List.mem_map_of_mem (Disk.mem_of_lookup hl)) hclean
  rw [hold] at hmem
  have htells : ∀ ev ∈ ({ s with disk := (s.disk.rewriteSnapshot db.mtree).1 }.ret db
      .rewriteSnapshot .done).trace, h.Tells ev := by
    intro ev hmem
    rcases List.mem_append.mp hmem with hmem | hmem
    · exact hs.tells ev hmem
    · rw [List.mem_singleton.mp hmem]
      trivial
  obtain ⟨view,hev,hiff⟩ := hs.stored_iff h0 hdb hfits hlt hidle hne
    (List.subset_append_left ..) htells hwal
  exact ⟨_,view,hmem,hcurrent,hev,hiff⟩

end

/-- In every run of regular actions the snapshot of each version holds what was committed. From
any state of such a run, `RewriteSnapshot` and `WriteSnapshot` write such a snapshot exactly when the
trees are those of the last commit. -/
theorem snapshot_holds_version (hrun : Run System.step (System.Regular []) {} s) :
    (∀ p ∈ s.disk.snapshots, p.1 ≠ 0 → s.Stored p.1 p.2 ∧
      ((∃ view, Event.returned .commit (.version p.1) view ∈ s.trace) ∨
        ∃ db ∈ s.db, db.phase.Committing ∧ db.mtree.version = p.1)) ∧
    (∀ db s', s.db = some db → s.step (.call .rewriteSnapshot) = some s' →
      s'.Returned .rewriteSnapshot (· = .done) → db.mtree.Fits → db.mtree.version < maxUint32 →
      db.mtree.version ∉ s.disk.tmpDirs.map Prod.fst →
      ∃ dir view, (db.mtree.version,dir) ∈ s'.disk.snapshots ∧
        s'.disk.current = some db.mtree.version ∧
        Event.returned .commit (.version db.mtree.version) view ∈ s.trace ∧
        (s'.Stored db.mtree.version dir ↔ db.mtree.trees = view.trees)) ∧
    ∀ db, s.db = some db → db.phase = .idle → db.mtree.version ≠ 0 → db.mtree.Fits →
      db.mtree.version < maxUint32 →
      ∃ view, Event.returned .commit (.version db.mtree.version) view ∈ s.trace ∧
        (s.Stored db.mtree.version (db.writeSnapshot []) ↔ db.mtree.trees = view.trees) := by
  have hroot := Reachable.rooted (reachable_of_run hrun)
  obtain rfl | ⟨h,hs,h0⟩ := exists_remembers hrun
  · exact ⟨by simp,by simp,by simp⟩
  refine ⟨fun p hp hne => ?_,
    fun db s' hdb hstep hret hfits hlt => hs.rewriteSnapshot h0 hdb hfits hlt hroot hstep hret,
    fun db hdb hidle hne hfits hlt => hs.stored_iff h0 hdb hfits hlt hidle hne
      (List.Subset.refl _) hs.tells rfl⟩
  obtain ⟨k,t,hload,hversion,ht⟩ := (hs.faithful.disk.stored p hp).resolve_right (by simp)
  rw [← hversion] at hne ⊢
  exact ⟨⟨t,hload,holds_of_shows hs.faithful.valid hs.tells hs.faithful.flight ht hne⟩,
    hs.told_version h0 ht hne⟩

/-- One version with a store `x`, and a store `y` that is added and not committed. -/
def pendingStoreActs : List Act :=
  [.load { createIfMissing := true, initialStores := [[120]], asyncCommitBuffer := -1 }] ++
    commitActs ++ [.call (.applyUpgrades [{ name := [121] }])]

/-- The snapshot of version 1 has the store that was not committed, and after the commit of
version 2 the database does not load any more. -/
theorem snapshot_holds_pending : ∃ (s s' s'' : System) (db : DB) (dir : SnapshotDir) (view : View),
    Run System.step (System.Regular []) {} s ∧ s.db = some db ∧
      s.step (.call .rewriteSnapshot) = some s' ∧ s'.Returned .rewriteSnapshot (· = .done) ∧
      db.mtree.version = 1 ∧ (1,dir) ∈ s'.disk.snapshots ∧
      Event.returned .commit (.version 1) view ∈ s.trace ∧ ¬s'.Stored 1 dir ∧
      Run System.step (fun _ _ => True) s' s'' ∧
      s''.Returned .commit (· = .version 2) ∧ ∃ e, (DB.load {} s''.disk).1 = .error e := by
  have hex : (exec System.step (System.Regular []) pendingStoreActs {}).any (fun s =>
      s.db.any fun db => (s.step (.call .rewriteSnapshot)).any fun s' =>
        (s'.disk.snapshots.lookup 1).any fun dir => (exec System.step (fun _ _ => True)
          commitActs s').any fun s'' =>
        (db.mtree.version = 1 ∧ (∀ db ∈ s'.db, db.phase = .idle) ∧
          s'.trace.getLast? = some (.returned .rewriteSnapshot .done db.mtree.view)) ∧
        (∃ view ∈ s.trace.filterMap (committedView? 1),
          ∀ t ∈ (MultiTree.load dir).toOption, t.view ≠ view) ∧
        (∀ db ∈ s''.db, db.phase = .idle) ∧
        (∃ view ∈ s''.trace.filterMap (committedView? 2),
          s''.trace.getLast? = some (.returned .commit (.version 2) view)) ∧
        (DB.load {} s''.disk).1.toOption = none) = true := by
    decide +kernel
  obtain ⟨s,hrun,hex⟩ := Run.exists_of_exec hex
  obtain ⟨db,hdb,hex⟩ := (Option.any_eq_true ..).mp hex
  obtain ⟨s',hstep,hex⟩ := (Option.any_eq_true ..).mp hex
  obtain ⟨dir,hdir,hex⟩ := (Option.any_eq_true ..).mp hex
  obtain ⟨s'',hrun',hex⟩ := Run.exists_of_exec hex
  obtain ⟨⟨hversion,hidle,hlast⟩,⟨view,hview,hne⟩,hidle',⟨view',-,hlast'⟩,hload⟩ :=
    of_decide_eq_true hex
  have hev := mem_trace_of_view hview
  have htrace : Event.returned .commit (.version 1) view ∈ s'.trace := by
    obtain ⟨-,-,rfl⟩ := step_rewriteSnapshot hdb hstep ⟨hidle,_,_,hlast,rfl⟩
    exact List.mem_append_left _ hev
  refine ⟨s,s',s'',db,dir,view,hrun,hdb,hstep,⟨hidle,_,_,hlast,rfl⟩,hversion,
    Disk.mem_of_lookup hdir,hev,?_,hrun',⟨hidle',_,_,hlast',rfl⟩,error_of_toOption hload⟩
  rintro ⟨t,ht,hholds⟩
  exact hne t (by rw [ht]; rfl) (hholds.committed view htrace)

/-- The same, when the snapshot is taken after the commit. -/
theorem snapshot_holds_version_two : ∃ (s s' : System) (db : DB) (dir : SnapshotDir),
    Run System.step (System.Regular []) {} s ∧ s.db = some db ∧
      s.step (.call .rewriteSnapshot) = some s' ∧ s'.Returned .rewriteSnapshot (· = .done) ∧
      db.mtree.version = 2 ∧ (2,dir) ∈ s'.disk.snapshots ∧ s'.Stored 2 dir := by
  have hex : (exec System.step (System.Regular []) (pendingStoreActs ++ commitActs) {}).any
      (fun s => s.db.any fun db => (s.step (.call .rewriteSnapshot)).any fun s' =>
        db.mtree.version = 2 ∧ db.mtree.Fits ∧ db.mtree.version ∉ s.disk.tmpDirs.map Prod.fst ∧
          (∀ view ∈ s.trace.filterMap (committedView? 2), db.mtree.trees = view.trees) ∧
          (∀ db ∈ s'.db, db.phase = .idle) ∧ ∃ ev ∈ s'.trace.getLast?,
            ev = .returned .rewriteSnapshot .done db.mtree.view) = true := by
    decide +kernel
  obtain ⟨s,hrun,hex⟩ := Run.exists_of_exec hex
  obtain ⟨db,hdb,hex⟩ := (Option.any_eq_true ..).mp hex
  obtain ⟨s',hstep,hex⟩ := (Option.any_eq_true ..).mp hex
  obtain ⟨hversion,hfits,hclean,htrees,hidle,ev,hlast,rfl⟩ := of_decide_eq_true hex
  have hret : s'.Returned .rewriteSnapshot (· = .done) := ⟨hidle,_,_,hlast,rfl⟩
  obtain ⟨dir,view,hmem,-,hev,hiff⟩ := (snapshot_holds_version hrun).2.1 db s' hdb hstep hret hfits
    (by rw [hversion]; decide) hclean
  rw [hversion] at hmem hev hiff
  refine ⟨s,s',db,dir,hrun,hdb,hstep,hret,hversion,hmem,hiff.mpr (htrees view ?_)⟩
  exact List.mem_filterMap.mpr ⟨_,hev,by simp [committedView?]⟩

end System

end Memiavl
