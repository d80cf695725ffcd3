import Memiavl.FaithfulRun

/-! `Load` opens a version of the history, so whole runs of regular actions keep to one history
that only grows. -/
namespace Memiavl

open MultiTree Transition

section
variable {h : History} {k : ℕ} {t t' : MultiTree} {wal : IndexedLog WALEntry}

theorem History.Shows.of_catchupWAL (hv : h.Valid) (ht : h.Shows k t) (hl : h.Logs wal)
    (hk : wal.base ≤ k) {endVersion : ℕ} (hc : t.catchupWAL wal endVersion = .ok t') :
    h.Shows (max k (min (t.endIndex wal endVersion) wal.lastIndex)) t' ∧
      (k < wal.lastIndex → k < t.endIndex wal endVersion) := by
  have hend : k < wal.lastIndex → k < t.endIndex wal endVersion := by
    intro hlt
    have hpos := ht.position hv
    rcases (catchupWAL_eq_ok (ht.sane hv)).mp hc with ⟨hle,-⟩ | ⟨-,hend,-⟩ <;> omega
  obtain ⟨t₁,hc₁,hs⟩ := ht.catchupWAL hv hl hk endVersion hend
  rw [hc] at hc₁
  cases hc₁
  exact ⟨hs,hend⟩

end

namespace Disk.Keeps

variable {d : Disk} {h : History} {leftover : List (ℕ × SnapshotDir)} {T v : ℕ} {t : MultiTree}

theorem startSnapshot_mem (hd : d.Keeps h leftover) (hT : T = 0 ∨ leftover = [])
    (hstart : d.startSnapshot T = .ok v) : ∃ p ∈ d.snapshots, p.1 = v ∧ h.Stores p := by
  by_cases h0 : 0 < T
  · obtain ⟨p,hp,rfl⟩ := List.mem_map.mp (startSnapshot_le h0 hstart).2
    refine ⟨p,hp,rfl,(hd.stored p hp).resolve_right ?_⟩
    rw [hT.resolve_left (by omega)]
    simp
  · obtain ⟨p,hp,hcurrent,hs⟩ := hd.current
    rw [startSnapshot,if_neg h0,hcurrent] at hstart
    cases hstart
    exact ⟨p,hp,rfl,hs⟩

/-- The trees that `Load` opens are a version of the history, and have no version only when the
log is empty. -/
theorem shows_loadTarget (hd : d.Keeps h leftover) (hv : h.Valid) (hT : T = 0 ∨ leftover = [])
    (hl : d.loadTarget T = .ok (v,t)) :
    ∃ k, h.Shows k t ∧ d.wal.base ≤ k ∧ (t.version = 0 → d.wal.lastIndex = 0) := by
  obtain ⟨t₀,hstart,h₀,hc⟩ := loadTarget_eq_ok.mp hl
  obtain ⟨p,hp,rfl,hs⟩ := hd.startSnapshot_mem hT hstart
  obtain ⟨t₁,h₁,-,ht⟩ := hd.loadMultiTree hv hp hs
  rw [h₀] at h₁
  cases h₁
  have hbase := hd.covered p.1 (List.mem_map_of_mem hp)
  split at hc
  · obtain ⟨ht',hend⟩ := ht.of_catchupWAL hv hd.logged hbase hc
    refine ⟨_,ht',hbase.trans (le_max_left ..),fun h0 => ?_⟩
    have hposition := ht'.position hv
    rw [position,entriesAt,if_pos h0] at hposition
    omega
  · subst hc
    exact ⟨_,ht,hbase,by omega⟩

/-- There is nothing to create in the directory. -/
theorem prepare_eq (hd : d.Keeps h leftover) {o : Options} (ho : o.validate = none) :
    DB.prepare o d = (if o.readOnly then d else d.removeTmpDirs,none) := by
  obtain ⟨p,hp,hcurrent,-⟩ := hd.current
  exact DB.prepare_of_current ho ⟨p.1,List.mem_map_of_mem hp,hcurrent⟩

theorem prepared (hd : d.Keeps h leftover) (readOnly : Bool) :
    Keeps (if readOnly then d else d.removeTmpDirs) h leftover := by
  split
  · exact hd
  · exact hd.congr rfl rfl rfl

end Disk.Keeps

namespace System

variable {s s' : System} {h : History} {leftover : List (ℕ × SnapshotDir)} {db : DB}

theorem openWith_eq_ok {o : Options} {mtree : MultiTree} (hopen : DB.openWith o mtree = .ok db) :
    ∃ us m, mtree.applyUpgrades us = (m,none) ∧
      db = { opts := o, mtree := m, pendingLog := { upgrades := us } } := by
  unfold DB.openWith at hopen
  simp only at hopen
  split at hopen
  · rename_i hcond
    unfold DB.applyUpgrades at hopen
    rw [if_neg (by simpa using hcond.1)] at hopen
    simp only at hopen
    cases hm : mtree.applyUpgrades (o.initialStores.map fun name => { name }) with
    | mk m err =>
      rw [hm] at hopen
      cases err <;> cases hopen
      exact ⟨_,m,hm,rfl⟩
  · cases hopen
    exact ⟨[],mtree,rfl,rfl⟩

theorem tracks_openWith {d : Disk} {o : Options} {mtree : MultiTree} {k : ℕ} (hv : h.Valid)
    (hk : h.Shows k mtree) (hbase : d.wal.base ≤ k) (hfirst : mtree.version = 0 → h.entries = [])
    (htmp : o.readOnly = false → d.tmpDirs = []) (hopen : DB.openWith o mtree = .ok db) :
    db.Tracks h d := by
  obtain ⟨us,m,hm,rfl⟩ := openWith_eq_ok hopen
  have hsame := sameVersion_applyUpgrades mtree us
  rw [hm] at hsame
  have hposition : m.position = k := hsame.position_eq.trans (hk.position hv)
  exact {
    state := by
      refine ⟨mtree.bare,by rw [hposition]; exact hk.state,hsame.lastCommitInfo.trans hk.info,
        fun _ => ⟨?_,by simp⟩,False.elim⟩
      have hbare := bare_applyUpgrades mtree us
      rw [hm] at hbare
      simp only [applyWALEntry,hbare]
      rfl
    sent := False.elim
    first := fun h0 => hfirst (hsame.version_eq.symm.trans h0)
    base := by rw [hposition]; exact hbase
    writable := by simp [Phase.Committing]
    tmpDirs := by
      intro hro p hp
      rw [htmp hro] at hp
      cases hp
    alive := by simp
    rewriter := by simp
    received := False.elim
    waiting := by simp
    pruning := by simp
    error := rfl }

theorem lastIndex_of_closed (hs : s.Faithful h leftover) (hnone : s.db = none) :
    s.disk.wal.lastIndex = h.entries.length := by
  have hc := hs.flight
  rw [flight,hnone] at hc
  exact hc.lastIndex_eq

section
variable (hs : s.Faithful h leftover) (hnone : s.db = none) (hp : s.pruner = none) {o : Options}
  {d : Disk} (hr : System.Regular leftover s (.load o))
include hs hnone hp hr

omit hs hnone hp in
theorem rollback_of_regular (d : Disk) (v : ℕ) (iv : UInt32) : DB.rollback o d v iv = (d,none) := by
  rw [DB.rollback,if_neg]
  rcases hr with h0 | ⟨hover,-⟩
  · simp [h0]
  · simp [hover]

theorem goes_notLoaded {e : String} (hload : DB.load o s.disk = (.error e,d)) :
    s.GoesTo h leftover h { s with disk := d } := by
  obtain ⟨hkeeps,hwal⟩ : d.Keeps h leftover ∧ d.wal = s.disk.wal := by
    unfold DB.load at hload
    cases ho : o.validate with
    | some e' =>
      simp only [DB.prepare,ho] at hload
      cases hload
      exact ⟨hs.disk,rfl⟩
    | none =>
      simp only [hs.disk.prepare_eq ho,rollback_of_regular hr] at hload
      have hd : d = if o.readOnly then s.disk else s.disk.removeTmpDirs := by
        split at hload <;> exact (Prod.mk.inj hload).2.symm
      subst hd
      exact ⟨hs.disk.prepared o.readOnly,by split <;> rfl⟩
  have hc := hs.flight
  refine goes_same ⟨hs.valid,hs.small,hkeeps,?_,?_,?_,hs.leftover⟩ (List.append_nil _).symm (by simp)
    (.of_none hnone)
  · rw [hwal]
    exact hc
  · simp [hnone]
  · simp [hp]

theorem goes_loaded (hload : DB.load o s.disk = (.ok db,d)) :
    s.GoesTo h leftover h { s with disk := d, db := some db } := by
  obtain ⟨d₁,v,mtree,hprep,hl,hroll,hopen⟩ := load_eq_ok hload
  rw [rollback_of_regular hr] at hroll
  cases hroll
  rw [hs.disk.prepare_eq (DB.validate_of_prepare hprep)] at hprep
  obtain rfl := (Prod.mk.inj hprep).1
  have hkeeps := hs.disk.prepared o.readOnly
  have hwal : (if o.readOnly then s.disk else s.disk.removeTmpDirs).wal = s.disk.wal := by
    split <;> rfl
  have htmp : o.readOnly = false →
      (if o.readOnly then s.disk else s.disk.removeTmpDirs).tmpDirs = [] := by
    intro hro
    simp [hro,Disk.removeTmpDirs]
  have hlast := lastIndex_of_closed hs hnone
  generalize (if o.readOnly then s.disk else s.disk.removeTmpDirs) = d at hl hkeeps hwal htmp
  obtain ⟨k,hk,hbase,hfirst⟩ := hkeeps.shows_loadTarget hs.valid (hr.imp (by simp +contextual)
    And.right) hl
  rw [hwal,hlast] at hfirst
  obtain ⟨htouch,hphase⟩ := touches_openWith hopen
  have hflight : db.flight = s.flight := by
    rw [flight_of_held_nil (by rw [hphase]; rfl),DB.chanFlight,htouch.walChan,flight,hnone]
    rfl
  refine goes_same ⟨hs.valid,hs.small,hkeeps,?_,?_,by simp [hp],hs.leftover⟩
    (List.append_nil _).symm (by simp) (.of_none hnone)
  · rw [hwal,flight_some rfl,hflight]
    exact hs.flight
  · rintro x ⟨⟩
    exact tracks_openWith hs.valid hk hbase (fun h0 => List.eq_nil_of_length_eq_zero (hfirst h0))
      htmp hopen

end

theorem Faithful.step (hok : s.Ok) (hs : s.Faithful h leftover) {a : Act}
    (hr : System.Regular leftover s a) (hstep : s.step a = some s') : s.Goes h leftover s' := by
  cases turns_of_step hstep with
  | loaded hnone hp hload => exact ⟨h,goes_loaded hs hnone hp hr hload⟩
  | notLoaded hnone hp hload => exact ⟨h,goes_notLoaded hs hnone hp hr hload⟩
  | starts hdb hidle hstart =>
    obtain ⟨h',hg,-⟩ := goes_starts hok hs hdb hidle (hr _ hdb) hstart
    exact ⟨h',hg⟩
  | proceeds hdb hp =>
    obtain rfl := hr
    exact ⟨h,goes_proceeds hok hs hdb hp⟩
  | writes hdb hc hw =>
    obtain rfl := hr
    exact ⟨h,goes_writes hok hs hdb hc hw⟩
  | rewrites hdb hrew hd => exact ⟨h,goes_rewrites hs hdb hrew (hr _ hdb _ hrew) hd⟩
  | prunes hp hd => exact ⟨h,goes_prunes hs hp hd⟩
  | crashed | interrupted => exact hr.elim

/-- The state and what calls have returned up to it are those of a history. -/
structure Remembers (s : System) (h : History) (leftover : List (ℕ × SnapshotDir)) : Prop where
  faithful : s.Faithful h leftover
  tells : ∀ ev ∈ s.trace, h.Tells ev
  told : s.Told h

/-- What calls have returned before is true of the later history as well. -/
theorem GoesTo.remembers {h' : History} (hg : s.GoesTo h leftover h' s')
    (hs : s.Remembers h leftover) : s'.Remembers h' leftover := by
  obtain ⟨events,htrace,hevents⟩ := hg.trace
  refine ⟨hg.faithful,fun ev hev => ?_,hg.told hs.told⟩
  rw [htrace] at hev
  rcases List.mem_append.mp hev with hev | hev
  · exact hg.leads.tells (hs.tells ev hev)
  · exact hevents ev hev

theorem Faithful.run (hok : s.Ok) (hs : s.Faithful h leftover)
    (hrun : Run System.step (System.Regular leftover) s s') :
    s'.Ok ∧ s.Goes h leftover s' := by
  refine hrun.invariant (I := fun t => t.Ok ∧ s.Goes h leftover t) ⟨hok,h,.refl hs⟩ ?_
  rintro t a t' ⟨hok,h₁,ht⟩ ha hstep
  obtain ⟨h₂,ht'⟩ := ht.faithful.step hok ha hstep
  exact ⟨hok.step hstep,h₂,ht.trans ht'⟩

theorem reachable_of_run {ok : System → Act → Prop} (hrun : Run System.step ok {} s) :
    s.Reachable :=
  hrun.mono fun _ _ _ => trivial

theorem step_load {o : Options} {d : Disk} (hclosed : s.db = none) (hp : s.pruner = none)
    (hload : DB.load o s.disk = (.ok db,d)) :
    s.step (.load o) = some { s with disk := d, db := some db } := by
  simp only [System.step,hclosed,hp,hload]

def created (initialVersion : UInt32) : Disk where
  snapshots := [(0,(newEmpty initialVersion).writeSnapshot [])]
  current := some 0

theorem createDBIfNotExist_empty (iv : UInt32) :
    ({} : Disk).createDBIfNotExist iv = (created iv,none) := rfl

theorem valid_newEmpty (iv : UInt32) : (History.mk (newEmpty iv) []).Valid where
  bare := rfl
  sane := ⟨.inl rfl,le_refl _⟩
  position := rfl
  proper := ⟨⟨List.Pairwise.nil,rfl⟩,by simp [newEmpty]⟩
  saved := by simp [Saved,newEmpty]
  empty := fun _ => rfl
  replays := ⟨_,rfl⟩

theorem faithful_created (iv : UInt32) :
    Faithful { disk := created iv } ⟨newEmpty iv,[]⟩ [] := by
  have hv := valid_newEmpty iv
  have hstores : History.Stores ⟨newEmpty iv,[]⟩ (0,(newEmpty iv).writeSnapshot []) :=
    hv.stores_empty rfl
  refine ⟨hv,by simp,⟨?_,by simp [created,Disk.versions],⟨_,by simp [created],rfl,hstores⟩,?_,?_⟩,?_,
    by simp,by simp,by simp⟩
  · intro p hp
    obtain rfl := List.mem_singleton.mp hp
    exact .inl hstores
  · exact ⟨0,by simp,rfl⟩
  · intro v _
    exact Nat.zero_le _
  · exact .of_nil ⟨0,by simp,rfl⟩ rfl

theorem loadTarget_empty (T : ℕ) : ∃ e, ({} : Disk).loadTarget T = .error e := by
  unfold Disk.loadTarget Disk.startSnapshot
  by_cases hT : 0 < T
  · rw [if_pos hT]
    exact ⟨_,rfl⟩
  · rw [if_neg hT]
    exact ⟨_,rfl⟩

/-- `Load` of an empty directory fails and leaves it so, or creates it first. -/
theorem load_empty (o : Options) : (∃ e, DB.load o {} = (.error e,{})) ∨
    DB.load o {} = DB.load o (created o.initialVersion) := by
  cases ho : o.validate with
  | some e =>
    refine .inl ⟨s!"invalid options: {e}",?_⟩
    simp only [DB.load,DB.prepare,ho]
  | none =>
    cases hcreate : o.createIfMissing with
    | true =>
      refine .inr ?_
      simp only [DB.load,DB.prepare,ho,hcreate,if_true,createDBIfNotExist_empty]
      rfl
    | false =>
      obtain ⟨e,he⟩ := loadTarget_empty o.targetVersion.toNat
      have hprep : DB.prepare o {} = ({},none) := by
        simp [DB.prepare,ho,hcreate,Disk.removeTmpDirs]
      refine .inl ⟨e,?_⟩
      simp only [DB.load,hprep,he]

theorem remembers_created (iv : UInt32) :
    Remembers { disk := created iv } ⟨newEmpty iv,[]⟩ [] :=
  ⟨faithful_created iv,by simp,fun k hk hle => absurd hk (Nat.not_lt.mpr hle)⟩

theorem step_empty {a : Act} (hr : System.Regular [] {} a) (hstep : ({} : System).step a = some s) :
    s = {} ∨ ∃ h, s.Remembers h [] ∧ h.start.version = 0 := by
  cases turns_of_step hstep with
  | @loaded o db d hnone hp hload =>
    rcases load_empty o with ⟨e,he⟩ | heq
    · rw [hload] at he
      cases he
    · rw [heq] at hload
      have hg := goes_loaded (faithful_created o.initialVersion) rfl rfl hr hload
      exact .inr ⟨_,hg.remembers (remembers_created o.initialVersion),rfl⟩
  | @notLoaded o e d hnone hp hload =>
    rcases load_empty o with ⟨e',he⟩ | heq
    · rw [hload] at he
      cases he
      exact .inl rfl
    · rw [heq] at hload
      have hg := goes_notLoaded (faithful_created o.initialVersion) rfl rfl hr hload
      exact .inr ⟨_,hg.remembers (remembers_created o.initialVersion),rfl⟩
  | starts hdb | proceeds hdb | writes hdb | rewrites hdb => cases hdb
  | prunes hp => cases hp
  | crashed | interrupted => exact hr.elim

/-- The history of a run from an empty directory, whose actions keep to a history and are regular
at first. -/
theorem remembers_of_goes {ok : System → Act → Prop} (hempty : ∀ a, ok {} a → System.Regular [] {} a)
    (hgoes : ∀ ⦃s h a s'⦄, s.Ok → s.Faithful h [] → ok s a → s.step a = some s' → s.Goes h [] s')
    (hrun : Run System.step ok {} s) :
    s = {} ∨ ∃ h, s.Remembers h [] ∧ h.start.version = 0 := by
  have hinv := hrun.invariant
    (I := fun t => t.Ok ∧ (t = {} ∨ ∃ h, t.Remembers h [] ∧ h.start.version = 0))
    ⟨⟨by simp [Disk.Sane],by simp⟩,.inl rfl⟩ ?_
  · exact hinv.2
  rintro t a t' ⟨hok,ht⟩ hr hstep
  refine ⟨hok.step hstep,?_⟩
  rcases ht with rfl | ⟨h,hs,h0⟩
  · exact step_empty (hempty a hr) hstep
  · obtain ⟨h',hg⟩ := hgoes hok hs.faithful hr hstep
    exact .inr ⟨h',hg.remembers hs,hg.leads.start.trans h0⟩

/-- The history of a run of regular actions from an empty directory. -/
theorem exists_remembers (hrun : Run System.step (System.Regular []) {} s) :
    s = {} ∨ ∃ h, s.Remembers h [] ∧ h.start.version = 0 :=
  remembers_of_goes (fun _ ha => ha) (fun _ _ _ _ hok hs ha hstep => hs.step hok ha hstep) hrun

end System

end Memiavl
