import Memiavl.Latest

/-! A process that ends while entries are queued or not yet on disk: what is left of the log is
an earlier version, and snapshots that are newer than it are left over. -/
namespace Memiavl

open MultiTree List Transition

namespace History

variable {h : History} {k n : ℕ} {t : MultiTree} {wal : IndexedLog WALEntry}

def cut (h : History) (n : ℕ) : History := { h with entries := h.entries.take n }

theorem length_cut (hn : n ≤ h.entries.length) : (h.cut n).entries.length = n := by
  rw [cut,length_take,min_eq_left hn]

theorem At.cut (ht : h.At k t) (hk : k ≤ n) : (h.cut n).At k t := by
  refine ⟨?_,?_⟩
  · rw [History.cut,length_take]
    exact le_min hk ht.1
  · rw [History.cut,take_take,min_eq_left hk]
    exact ht.2

theorem Valid.cut (hv : h.Valid) (hn : n ≤ h.entries.length) : (h.cut n).Valid := by
  obtain ⟨t,ht⟩ := hv.exists_at hn
  exact ⟨hv.bare,hv.sane,hv.position,hv.proper,hv.saved,hv.empty,t,ht.2⟩

theorem Shows.cut (ht : h.Shows k t) (hk : k ≤ n) : (h.cut n).Shows k t :=
  ⟨ht.state.cut hk,ht.info,ht.snapshot⟩

theorem Stores.cut (hv : h.Valid) {p : ℕ × SnapshotDir} (hs : h.Stores p)
    (hp : entriesAt p.1 h.start.initialVersion ≤ n) : (h.cut n).Stores p := by
  obtain ⟨t,hl,hversion,ht⟩ := hs.load hv
  exact ⟨_,t,hl,hversion,ht.cut hp⟩

theorem lastIndex_cut_le (wal : IndexedLog WALEntry) (keep : ℕ) :
    (wal.cut keep).lastIndex ≤ wal.lastIndex := by
  simp only [IndexedLog.lastIndex,IndexedLog.cut,length_take]
  omega

theorem Logs.cut (hl : h.Logs wal) (keep : ℕ) :
    (h.cut (wal.cut keep).lastIndex).Logs (wal.cut keep) := by
  have hle := hl.le
  obtain ⟨j,hj,hwal⟩ := hl
  have hbase : wal.base = j := (congrArg IndexedLog.base hwal).trans (Nat.zero_add j)
  have hentries : wal.entries = (h.entries.take wal.lastIndex).drop j :=
    congrArg IndexedLog.entries hwal
  have hlength : wal.lastIndex = j+wal.entries.length := by rw [IndexedLog.lastIndex,hbase]
  have hlast : (wal.cut keep).lastIndex = j+min keep wal.entries.length := by
    simp only [IndexedLog.lastIndex,IndexedLog.cut,length_take,hbase]
  refine ⟨j,?_,?_⟩
  · simp only [History.cut,length_take]
    omega
  · simp only [IndexedLog.dropFront,IndexedLog.cut,History.cut,take_take,min_self]
    rw [← hbase,Nat.zero_add]
    refine congrArg _ ?_
    change wal.entries.take keep = (h.entries.take (wal.cut keep).lastIndex).drop wal.base
    rw [hlength,drop_take,Nat.add_sub_cancel_left] at hentries
    rw [hlast,hbase,drop_take,Nat.add_sub_cancel_left]
    conv_lhs => rw [hentries,take_take]

theorem Carries.mem_flight {flight : List WalEntry} (hc : h.Carries wal flight) {e : WalEntry}
    (hpos : 0 < e.index) (hdata : h.entries[e.index-1]? = some e.data)
    (hlast : wal.lastIndex < e.index) : e ∈ flight := by
  obtain ⟨hlt,-⟩ := List.getElem?_eq_some_iff.mp hdata
  have hcomplete := hc.complete
  have hmem : e.index ∈ (System.beyond wal flight).map WalEntry.index := by
    rw [hc.consecutive,mem_range'_1]
    omega
  obtain ⟨e',he',hindex⟩ := List.mem_map.mp hmem
  have hflight : e' ∈ flight := mem_of_mem_filter he'
  have hdata' := (hc.named e' hflight).2
  rw [hindex,hdata] at hdata'
  have heq : e = e' := by
    cases e
    cases e'
    simp_all
  rwa [heq]

end History

namespace Disk

variable {d d' : Disk} {t : MultiTree} {h : History} {leftover : List (ℕ × SnapshotDir)} {k : ℕ}

/-- The directory with the first `keep` entries of its log. -/
def cut (d : Disk) (keep : ℕ) : Disk := { d with wal := d.wal.cut keep }

/-- The directory when the process ends during `RewriteSnapshot`. -/
inductive Interrupted (d : Disk) (t : MultiTree) : Disk → Prop
  | started : Interrupted d t d
  /-- The temporary directory has been created, with some of its files. -/
  | filling (dir : SnapshotDir) :
      Interrupted d t { d with tmpDirs := putDir t.version dir d.tmpDirs }
  | renamed {d₁ : Disk} : (d.writeTmp t).renameTmp t.version = some d₁ → Interrupted d t d₁
  | linked {d₁ d₂ : Disk} : (d.writeTmp t).renameTmp t.version = some d₁ →
      d₁.linkTmp t.version = some d₂ → Interrupted d t d₂
  | switched {d₁ d₂ d₃ : Disk} : (d.writeTmp t).renameTmp t.version = some d₁ →
      d₁.linkTmp t.version = some d₂ → d₂.renameLink = some d₃ → Interrupted d t d₃

theorem linkTmp_eq_some {v : ℕ} : d.linkTmp v = some d' ↔
    d.currentTmp = none ∧ d' = { d with currentTmp := some v } := by
  unfold linkTmp
  cases d.currentTmp <;> simp [eq_comm]

theorem renameLink_eq_some : d.renameLink = some d' ↔ ∃ v, d.currentTmp = some v ∧
    d' = { d with current := some v, currentTmp := none } := by
  unfold renameLink
  cases d.currentTmp <;> simp [eq_comm]

theorem interrupted_of_mem (hd' : d' ∈ d.rewritePoints t) : d.Interrupted t d' := by
  rcases mem_cons.mp hd' with rfl | hd'
  · exact .filling _
  · split at hd'
    · cases hd'
    · rename_i d₁ hr
      rcases mem_cons.mp hd' with rfl | hd'
      · exact .renamed hr
      · exact .linked hr (Option.mem_toList.mp hd')

/-- Wherever a rewrite of a committed version ends, the directory keeps the history. -/
theorem Keeps.interrupted (hd : d.Keeps h leftover) (hv : h.Valid)
    (htmp : ∀ p ∈ d.tmpDirs, p.1 ≠ 0 ∧ h.Stores p) (ht : h.Shows k t) (hne : t.version ≠ 0)
    (hfits : t.Fits) (hbase : d.wal.base ≤ t.position) (hi : d.Interrupted t d') :
    d'.Keeps h leftover ∧ d'.wal = d.wal := by
  have hren : ∀ d₁, (d.writeTmp t).renameTmp t.version = some d₁ →
      System.Renames (d.writeTmp t) d₁ h leftover t.version := by
    intro d₁ hr
    have hwrote : (d.writeTmp t).Keeps h leftover := hd.congr rfl rfl rfl
    refine System.renames_renameTmp hwrote (System.stores_writeTmp hv htmp ht hne hfits) ?_ hr
    rw [← ht.initialVersion hv]
    exact hbase
  cases hi with
  | started => exact ⟨hd,rfl⟩
  | filling dir => exact ⟨hd.congr rfl rfl rfl,rfl⟩
  | renamed hr => exact ⟨(hren _ hr).keeps,(hren _ hr).wal⟩
  | linked hr hl =>
    obtain ⟨-,rfl⟩ := linkTmp_eq_some.mp hl
    exact ⟨(hren _ hr).keeps.congr rfl rfl rfl,(hren _ hr).wal⟩
  | switched hr hl hs =>
    obtain ⟨-,rfl⟩ := linkTmp_eq_some.mp hl
    obtain ⟨v,hv,rfl⟩ := renameLink_eq_some.mp hs
    cases hv
    obtain ⟨dir,hmem,hstores⟩ := (hren _ hr).mem
    exact ⟨(hren _ hr).keeps.setCurrent hmem hstores none,(hren _ hr).wal⟩

/-- `Load` without a rollback changes the directory when it creates the database and when it has
prepared it. -/
theorem mem_loadPoints {o : Options}
    (hroll : (o.loadForOverwriting && 0 < o.targetVersion.toNat) = false)
    (hd' : d' ∈ DB.loadPoints o d) :
    d' ∈ d.createPoints o.initialVersion ∨ DB.prepare o d = (d',none) := by
  rcases mem_append.mp hd' with hd' | hd'
  · split at hd'
    · exact .inl hd'
    · cases hd'
  · split at hd'
    · cases hd'
    · rename_i d₁ hprep
      rcases mem_cons.mp hd' with rfl | hd'
      · exact .inr hprep
      · split at hd'
        · cases hd'
        · rw [hroll] at hd'
          cases hd'

theorem eq_of_mem_loadPoints {o : Options} (hcreated : ∃ c ∈ d.versions, d.current = some c)
    (hroll : (o.loadForOverwriting && 0 < o.targetVersion.toNat) = false)
    (hd' : d' ∈ DB.loadPoints o d) : d' = if o.readOnly then d else d.removeTmpDirs := by
  rcases mem_loadPoints hroll hd' with hd' | hprep
  · obtain ⟨c,hc,hcurrent⟩ := hcreated
    rw [createPoints,hcurrent] at hd'
    simp only [hc,if_true,not_mem_nil] at hd'
  · rw [DB.prepare_of_current (DB.validate_of_prepare hprep) hcreated] at hprep
    exact (Prod.mk.inj hprep).1.symm

end Disk

def Work.act : Work → Act
  | .load o => .load o
  | .setInitialVersion iv => .call (.setInitialVersion iv)
  | .rewriteSnapshot => .call .rewriteSnapshot

namespace System

variable {s s' : System} {h : History} {leftover : List (ℕ × SnapshotDir)} {db : DB} {d : Disk}
  {keep : ℕ} {a : Act} {iv : UInt32} {o : Options}

/-- The process ends, between two actions or during a regular one. -/
def Breaks (s : System) : Act → Prop
  | .crash _ => True
  | .interrupt w _ _ => System.Regular [] s w.act
  | _ => False

/-- The log reaches to the current snapshot. -/
def Covered (s : System) : Prop :=
  ∃ t, s.disk.loadCurrent = .ok t ∧ t.position ≤ s.disk.wal.lastIndex

theorem faithful_closed (hv : h.Valid) (hsmall : h.entries.length < 2^63)
    (hleft : ∀ p ∈ leftover, p.1 ≠ 0) (hd : s.disk.Keeps h leftover) (hdb : s.db = none)
    (hp : s.pruner = none) (hlast : s.disk.wal.lastIndex = h.entries.length) :
    s.Faithful h leftover := by
  refine ⟨hv,hsmall,hd,?_,by simp [hdb],by simp [hp],hleft⟩
  rw [flight,hdb]
  exact .of_nil hd.logged hlast

/-- The process has ended and the directory is that of a history, without some of the last entries
of its log. -/
structure Torn (s : System) (h : History) (leftover : List (ℕ × SnapshotDir)) : Prop where
  valid : h.Valid
  small : h.entries.length < 2^63
  disk : ∃ (d : Disk) (keep : ℕ), d.Keeps h leftover ∧ s.disk = d.cut keep
  leftover : ∀ p ∈ leftover, p.1 ≠ 0
  db : s.db = none
  pruner : s.pruner = none

theorem Torn.created (ht : s.Torn h leftover) : ∃ c ∈ s.disk.versions, s.disk.current = some c := by
  obtain ⟨d,keep,hd,hdisk⟩ := ht.disk
  obtain ⟨p,hp,hcurrent,-⟩ := hd.current
  rw [hdisk]
  exact ⟨p.1,mem_map_of_mem hp,hcurrent⟩

/-- A system whose log still reaches to the current snapshot is faithful to the history as far as
the log goes. -/
theorem Torn.faithful (ht : s.Torn h leftover) (hc : s.Covered) :
    ∃ h' leftover', s.Faithful h' leftover' := by
  obtain ⟨d,keep,hd,hdisk⟩ := ht.disk
  obtain ⟨t,hl,hposition⟩ := hc
  rw [hdisk] at hl hposition
  change t.position ≤ (d.wal.cut keep).lastIndex at hposition
  have hle : (d.wal.cut keep).lastIndex ≤ h.entries.length :=
    (History.lastIndex_cut_le _ keep).trans hd.logged.le
  have hlast : s.disk.wal.lastIndex = (h.cut (d.wal.cut keep).lastIndex).entries.length := by
    rw [hdisk,History.length_cut hle]
    rfl
  refine ⟨h.cut (d.wal.cut keep).lastIndex,leftover ++ d.snapshots.filter fun p =>
      (d.wal.cut keep).lastIndex < entriesAt p.1 h.start.initialVersion,
    faithful_closed (ht.valid.cut hle) (by rw [History.length_cut hle]; exact hle.trans_lt ht.small)
      ?_ ?_ ht.db ht.pruner hlast⟩
  · intro p hp h0
    rcases mem_append.mp hp with hp | hp
    · exact ht.leftover p hp h0
    · have hlt := (mem_filter.mp hp).2
      rw [h0] at hlt
      simp [entriesAt] at hlt
  rw [hdisk]
  refine ⟨?_,hd.sorted,?_,hd.logged.cut keep,hd.covered⟩
  · intro p hp
    rcases hd.stored p hp with hstores | hleft
    · by_cases hp' : entriesAt p.1 h.start.initialVersion ≤ (d.wal.cut keep).lastIndex
      · exact .inl (hstores.cut ht.valid hp')
      · exact .inr (mem_append_right _ (mem_filter.mpr ⟨hp,by simpa using hp'⟩))
    · exact .inr (mem_append_left _ hleft)
  · obtain ⟨p,hp,hcurrent,hstores⟩ := hd.current
    obtain ⟨t',hl',-,hshows⟩ := hd.loadMultiTree ht.valid hp hstores
    have ht' : d.loadCurrent = .ok t' := by rw [Disk.loadCurrent,hcurrent]; exact hl'
    cases ht'.symm.trans hl
    rw [hshows.position ht.valid] at hposition
    exact ⟨p,hp,hcurrent,hstores.cut ht.valid hposition⟩

theorem rollback_off {o : Options} (hr : System.Regular [] s (.load o)) :
    (o.loadForOverwriting && 0 < o.targetVersion.toNat) = false := by
  rcases hr with hT | ⟨ho,-⟩
  · simp [hT]
  · simp [ho]

/-- Wherever a regular action is interrupted, the directory keeps a history. -/
theorem keeps_points (hok : s.Ok) (hs : s.Faithful h leftover) {w : Work}
    (hr : System.Regular [] s w.act) (hd : d ∈ s.points w) :
    ∃ h', h'.Valid ∧ h'.entries.length < 2^63 ∧ d.Keeps h' leftover := by
  cases w with
  | load o =>
    simp only [points] at hd
    split at hd
    · obtain ⟨p,hp,hcurrent,-⟩ := hs.disk.current
      rw [Disk.eq_of_mem_loadPoints ⟨p.1,mem_map_of_mem hp,hcurrent⟩ (rollback_off hr) hd]
      exact ⟨h,hs.valid,hs.small,hs.disk.prepared o.readOnly⟩
    · cases hd
  | setInitialVersion iv =>
    simp only [points] at hd
    split at hd
    · rename_i db hdb
      have ht := hs.db db hdb
      obtain ⟨-,hnone⟩ := hr db hdb
      split at hd
      · unfold DB.initialVersionPoints at hd
        split at hd
        · cases hd
        · rename_i hwritable
          obtain ⟨hro,h0⟩ := not_or.mp hwritable
          have h0 : db.mtree.version = 0 := by omega
          split at hd
          · cases hd
          · rename_i mtree hset
            have hkeeps : (s.disk.writeEmpty mtree.initialVersion).Keeps
                (h.reset mtree.initialVersion) leftover :=
              hs.disk.writeEmpty hs.valid (ht.first h0) (ht.start_version h0) hs.leftover
            refine ⟨h.reset mtree.initialVersion,hs.valid.reset (ht.start_version h0),by change 0 < 2^63; decide,?_⟩
            rcases mem_cons.mp hd with rfl | hd
            · exact hkeeps
            · obtain ⟨-,rfl⟩ := Disk.linkTmp_eq_some.mp (Option.mem_toList.mp hd)
              exact hkeeps.congr rfl rfl rfl
      · cases hd
    · cases hd
  | rewriteSnapshot =>
    simp only [points] at hd
    split at hd
    · rename_i db hdb
      split at hd
      · rename_i hopen
        obtain ⟨hidle,hro⟩ := hopen
        obtain ⟨-,hpending,hne,hfits⟩ := hr db hdb
        have ht := hs.db db hdb
        have hshows := shows_of_pending_nil ht hidle hpending (hok.db db hdb).base.sane
        exact ⟨h,hs.valid,hs.small,(hs.disk.interrupted hs.valid (ht.tmpDirs hro) hshows hne hfits
          ht.base (Disk.interrupted_of_mem hd)).1⟩
      · cases hd
    · cases hd

theorem Faithful.torn (hok : s.Ok) (hs : s.Faithful h leftover) (ha : s.Breaks a)
    (hstep : s.step a = some s') : ∃ h', s'.Torn h' leftover := by
  cases turns_of_step hstep with
  | crashed => exact ⟨h,hs.valid,hs.small,⟨_,_,hs.disk,rfl⟩,hs.leftover,rfl,rfl⟩
  | interrupted hd =>
    obtain ⟨h',hv,hsmall,hkeeps⟩ := keeps_points hok hs ha hd
    exact ⟨h',hv,hsmall,⟨_,_,hkeeps,rfl⟩,hs.leftover,rfl,rfl⟩
  | loaded | notLoaded | starts | proceeds | writes | rewrites | prunes => exact ha.elim

theorem Torn.cut (ht : s.Torn h leftover) {d : Disk} (hd : d = s.disk ∨ d = s.disk.removeTmpDirs)
    (keep : ℕ) : (s.endsWith d keep).Torn h leftover := by
  obtain ⟨d₀,keep₀,hd₀,hdisk⟩ := ht.disk
  rw [hdisk] at hd
  refine ⟨ht.valid,ht.small,?_,ht.leftover,rfl,rfl⟩
  rcases hd with rfl | rfl
  · refine ⟨d₀,min keep keep₀,hd₀,?_⟩
    simp [endsWith,Disk.cut,IndexedLog.cut,take_take]
  · refine ⟨d₀.removeTmpDirs,min keep keep₀,hd₀.congr rfl rfl rfl,?_⟩
    simp [endsWith,Disk.cut,Disk.removeTmpDirs,IndexedLog.cut,take_take]

theorem Torn.ends (ht : s.Torn h leftover) (ha : s.Breaks a) (hstep : s.step a = some s') :
    s'.Torn h leftover := by
  cases turns_of_step hstep with
  | crashed => exact ht.cut (.inl rfl) _
  | @interrupted w n keep d hd =>
    cases w with
    | load o =>
      simp only [points,ht.db,ht.pruner] at hd
      rw [Disk.eq_of_mem_loadPoints ht.created (rollback_off (s := s) ha) hd]
      refine ht.cut ?_ _
      split
      · exact .inl rfl
      · exact .inr rfl
    | setInitialVersion iv | rewriteSnapshot =>
      simp only [points,ht.db] at hd
      cases hd
  | loaded | notLoaded | starts | proceeds | writes | rewrites | prunes => exact ha.elim

/-- No database has been created yet, although its first snapshot may be there. -/
structure Blank (s : System) : Prop where
  disk : ∃ snapshots currentTmp, s.disk = { snapshots, currentTmp } ∧
    (snapshots = [] ∨ ∃ iv, snapshots = [(0,(newEmpty iv).writeSnapshot [])])
  db : s.db = none
  pruner : s.pruner = none

theorem blank_empty : Blank {} := ⟨⟨[],none,rfl,.inl rfl⟩,rfl,rfl⟩

theorem Blank.current (hb : s.Blank) : s.disk.current = none := by
  obtain ⟨snapshots,currentTmp,hdisk,-⟩ := hb.disk
  rw [hdisk]

theorem Blank.writeEmpty (hb : s.Blank) (iv : UInt32) : s.disk.writeEmpty iv =
    { snapshots := [(0,(newEmpty iv).writeSnapshot [])], currentTmp := s.disk.currentTmp } := by
  obtain ⟨snapshots,currentTmp,hdisk,rfl | ⟨iv',rfl⟩⟩ := hb.disk <;> rw [hdisk] <;> rfl

theorem Blank.createDBIfNotExist (hb : s.Blank) (iv : UInt32) :
    s.disk.createDBIfNotExist iv = if s.disk.currentTmp = none then (created iv,none)
      else (s.disk.writeEmpty iv,some "file exists") := by
  rw [Disk.createDBIfNotExist,hb.current,Disk.initEmptyDB,hb.writeEmpty]
  cases s.disk.currentTmp <;> rfl

theorem Blank.prepare (hb : s.Blank) {o : Options} (ho : o.validate = none) :
    DB.prepare o s.disk =
      if o.createIfMissing then
        if s.disk.currentTmp = none then (created o.initialVersion,none)
        else (s.disk.writeEmpty o.initialVersion,some "fail to load db: file exists")
      else (s.disk,none) := by
  obtain ⟨snapshots,currentTmp,hdisk,-⟩ := hb.disk
  simp only [DB.prepare,ho,hb.createDBIfNotExist]
  cases o.createIfMissing with
  | false => simp [hdisk,Disk.removeTmpDirs]
  | true =>
    cases hlink : s.disk.currentTmp with
    | none => simp [created,Disk.removeTmpDirs]
    | some v => simp; rfl

theorem torn_created (hdisk : s.disk = (created iv).cut keep) (hdb : s.db = none)
    (hp : s.pruner = none) : s.Torn ⟨newEmpty iv,[]⟩ [] := by
  have hs := faithful_created iv
  exact ⟨hs.valid,hs.small,⟨_,_,hs.disk,hdisk⟩,hs.leftover,hdb,hp⟩

theorem Blank.ends (hb : s.Blank) (ha : s.Breaks a) (hstep : s.step a = some s') :
    s'.Blank ∨ ∃ iv, s'.Torn ⟨newEmpty iv,[]⟩ [] := by
  obtain ⟨snapshots,currentTmp,hdisk,hsnapshots⟩ := hb.disk
  have hsame : ∀ keep, (s.endsWith s.disk keep).Blank := fun keep =>
    ⟨⟨snapshots,currentTmp,by simp [endsWith,hdisk,IndexedLog.cut],hsnapshots⟩,rfl,rfl⟩
  cases turns_of_step hstep with
  | crashed keep => exact .inl (hsame keep)
  | @interrupted w n keep d hd =>
    cases w with
    | load o =>
      simp only [points,hb.db,hb.pruner] at hd
      rcases Disk.mem_loadPoints (rollback_off (s := s) ha) hd with hd | hprep
      · rw [Disk.createPoints,hb.current] at hd
        simp only [Disk.initPoints,hb.writeEmpty] at hd
        refine .inl ⟨?_,rfl,rfl⟩
        rcases mem_cons.mp hd with rfl | hd
        · exact ⟨[(0,(newEmpty o.initialVersion).writeSnapshot [])],s.disk.currentTmp,
            by simp [endsWith,IndexedLog.cut],.inr ⟨_,rfl⟩⟩
        · obtain ⟨-,rfl⟩ := Disk.linkTmp_eq_some.mp (Option.mem_toList.mp hd)
          exact ⟨[(0,(newEmpty o.initialVersion).writeSnapshot [])],some 0,
            by simp [endsWith,IndexedLog.cut],.inr ⟨_,rfl⟩⟩
      · rw [hb.prepare (DB.validate_of_prepare hprep)] at hprep
        split at hprep
        · split at hprep
          · obtain rfl := (Prod.mk.inj hprep).1
            exact .inr ⟨o.initialVersion,torn_created (show _ = (created _).cut keep from rfl) rfl rfl⟩
          · cases hprep
        · obtain rfl := (Prod.mk.inj hprep).1
          exact .inl (hsame keep)
    | setInitialVersion iv | rewriteSnapshot =>
      simp only [points,hb.db] at hd
      cases hd
  | loaded | notLoaded | starts | proceeds | writes | rewrites | prunes => exact ha.elim

/-- What a process leaves that ends after a regular run, and perhaps again before the next one
has opened the database. -/
theorem blank_or_torn {s₁ : System} (hrun : Run System.step (System.Regular []) {} s)
    (ha : s.Breaks a) (hstep : s.step a = some s₁) (hends : Run System.step Breaks s₁ s') :
    s'.Blank ∨ ∃ h, s'.Torn h [] := by
  refine hends.invariant (I := fun t => t.Blank ∨ ∃ h, t.Torn h []) ?_ ?_
  · rcases exists_remembers hrun with rfl | ⟨h,hs,-⟩
    · exact (blank_empty.ends ha hstep).imp_right fun ⟨iv,ht⟩ => ⟨_,ht⟩
    · exact .inr (hs.faithful.torn (reachable_of_run hrun).ok ha hstep)
  · rintro t b t' (hb | ⟨h,ht⟩) hb' hstep'
    · exact (hb.ends hb' hstep').imp_right fun ⟨iv,ht⟩ => ⟨_,ht⟩
    · exact .inr ⟨h,ht.ends hb' hstep'⟩

theorem upgradeTrees_add (next : UInt32) (trees : List NamedTree) (names : List Bytes) :
    upgradeTrees next trees (names.map fun name => { name }) =
      (trees ++ names.map fun name => ⟨name,.newWithInitialVersion next⟩,none) := by
  induction names generalizing trees with
  | nil => simp [upgradeTrees]
  | cons name names ih => simp [upgradeTrees,applyUpgrade,ih]

theorem exists_openWith {o : Options} (hstores : o.initialStores.Nodup) {mtree : MultiTree}
    (hempty : mtree.version = 0 → mtree.trees = []) : ∃ db, DB.openWith o mtree = .ok db := by
  unfold DB.openWith
  simp only
  split
  · rename_i hcond
    obtain ⟨hro,h0,hne⟩ := hcond
    have hup : mtree.applyUpgrades (o.initialStores.map fun name => { name }) =
        (_,none) := (applyUpgrades_eq_ok (by simpa using hne)).mpr
      ⟨_,upgradeTrees_add _ _ _,by simpa [hempty h0,Function.comp_def] using hstores,rfl⟩
    rw [DB.applyUpgrades,if_neg (by simpa using hro)]
    simp only [hup]
    exact ⟨_,rfl⟩
  · exact ⟨_,rfl⟩

theorem exists_load (hs : s.Faithful h leftover) {o : Options} (ho : o.validate = none)
    (hT : o.targetVersion = 0) (hstores : o.initialStores.Nodup) :
    ∃ db, DB.load o s.disk = (.ok db,if o.readOnly then s.disk else s.disk.removeTmpDirs) := by
  obtain ⟨c,t,-,hl,ht⟩ := (hs.disk.prepared o.readOnly).loadTarget_zero hs.valid
  have hempty : t.version = 0 → t.trees = [] := by
    intro h0
    have hk := ht.position hs.valid
    rw [position,entriesAt,if_pos h0] at hk
    rw [← hk] at ht
    have hstart : h.start = t.bare := Except.ok.inj ht.state.2
    have hversion : h.start.version = t.version := by rw [hstart,version_bare]
    exact (congrArg MultiTree.trees hstart).symm.trans (hs.valid.empty (hversion.trans h0))
  obtain ⟨db,hopen⟩ := exists_openWith hstores hempty
  have hr : System.Regular leftover s (.load o) := .inl hT
  have hl' : (if o.readOnly then s.disk else s.disk.removeTmpDirs).loadTarget
      o.targetVersion.toNat = .ok (c,t) := by rw [hT]; exact hl
  refine ⟨db,?_⟩
  simp only [DB.load,hs.disk.prepare_eq ho,hl',rollback_of_regular hr,hopen]

/-- Regular actions that open only the latest version, and ends of the process after which the log
still reaches to the current snapshot. -/
def Resumes (s : System) (a : Act) : Prop :=
  s.Onward a ∨ s.Breaks a ∧ ∀ s', s.step a = some s' → s'.Covered

theorem Latest.resumes (hok : s.Ok) (hs : s.Faithful h leftover) (hl : s.Latest h)
    (hrun : Run System.step Resumes s s') :
    s'.Ok ∧ ∃ h' leftover', s'.Faithful h' leftover' ∧ s'.Latest h' := by
  refine hrun.invariant (I := fun t => t.Ok ∧ ∃ h' leftover', t.Faithful h' leftover' ∧ t.Latest h')
    ⟨hok,h,leftover,hs,hl⟩ ?_
  rintro t a t' ⟨hok,h₁,leftover₁,hs,hl⟩ ha hstep
  refine ⟨hok.step hstep,?_⟩
  rcases ha with ha | ⟨ha,hcovered⟩
  · obtain ⟨h₂,hg,hl'⟩ := hl.step hok hs ha hstep
    exact ⟨h₂,leftover₁,hg.faithful,hl'⟩
  · obtain ⟨h₂,ht⟩ := hs.torn hok ha hstep
    obtain ⟨h₃,leftover₃,hs'⟩ := ht.faithful (hcovered t' hstep)
    exact ⟨h₃,leftover₃,hs',by rw [Latest,ht.db]; rintro x ⟨⟩⟩

theorem clean_eq (leftover : List (ℕ × SnapshotDir)) (quiet : Prop) :
    Clean leftover quiet = Clean [] quiet := by
  funext s a
  cases a with
  | load o => exact propext ⟨fun ha => ha.1.elim,fun ha => ha.1.elim⟩
  | call | proceed | write | rewrite | prune | crash | interrupt => rfl

/-- An entry is on its way to the log or at its place in it. -/
def Has (s : System) (e : WalEntry) : Prop :=
  e ∈ s.flight ∨ e.index ≤ s.disk.wal.base ∨ s.disk.wal.read e.index = some e.data

theorem Faithful.has (hs : s.Faithful h leftover) {e : WalEntry} (he : h.Tells (.committed e)) :
    s.Has e := by
  obtain ⟨hpos,hdata⟩ := he
  obtain ⟨hlt,-⟩ := List.getElem?_eq_some_iff.mp hdata
  have hc := hs.flight
  rcases Nat.lt_or_ge s.disk.wal.lastIndex e.index with hlast | hlast
  · exact .inl (hc.mem_flight hpos hdata hlast)
  · refine .inr (or_iff_not_imp_left.mpr fun hbase => ?_)
    rw [← hdata,← hc.read_eq (by omega) (by omega),Nat.sub_add_cancel hpos]

/-- The next `Commit` appends its entry. -/
structure Appends (s : System) (db : DB) : Prop where
  /-- The next index comes after all that the log has or is going to get. -/
  next : db.mtree.position = s.disk.wal.lastIndex+(beyond s.disk.wal s.flight).length
  /-- `Commit` returns without an error, whatever the goroutines do, with its entry at that index. -/
  commit : db.Regular s.disk .commit → ∃ s' e, s.step (.call .commit) = some s' ∧
    s'.trace = s.trace ++ [.committed e] ∧
    e.index = s.disk.wal.lastIndex+(beyond s.disk.wal s.flight).length+1 ∧
    Inevitably (Moves System.step (Clean [] False)) (fun t =>
      t.Returned .commit (· = .version (nextVersion db.mtree.version db.mtree.initialVersion)) ∧
        t.Has e) s'

theorem Latest.appends (hok : s.Ok) (hs : s.Faithful h leftover) (hl : s.Latest h)
    (hdb : s.db = some db) (hidle : db.phase = .idle) : s.Appends db := by
  have hnext : db.mtree.position = s.disk.wal.lastIndex+(beyond s.disk.wal s.flight).length := by
    rw [hl db hdb]
    exact hs.flight.complete.symm
  refine ⟨hnext,fun hr => ?_⟩
  obtain ⟨s',h',e,hstep,htrace,hindex,htells,hend⟩ :=
    @commit_inevitably s h leftover db False hok hs hdb hidle hr (.inr (hl db hdb))
  rw [clean_eq] at hend
  exact ⟨s',e,hstep,htrace,by rw [hindex,hnext],
    hend.mono fun t ht => ⟨ht.returned,ht.goes.faithful.has htells⟩⟩

/-- The trees of the current snapshot are opened as they are when the log does not go beyond them. -/
theorem position_of_load (hd : d.Keeps h leftover) (hv : h.Valid) {t : MultiTree}
    (hl : d.loadCurrent = .ok t) (hlast : (d.wal.cut keep).lastIndex ≤ t.position)
    (hT : o.targetVersion = 0) {d' : Disk} (hload : DB.load o (d.cut keep) = (.ok db,d')) :
    db.mtree.position = t.position ∧ d'.wal = d.wal.cut keep := by
  obtain ⟨d₁,v,mtree,hprep,htarget,hroll,hopen⟩ := load_eq_ok hload
  obtain ⟨p,hp,hcurrent,hstores⟩ := hd.current
  have hcut : ∃ c ∈ (d.cut keep).versions, (d.cut keep).current = some c :=
    ⟨p.1,List.mem_map_of_mem hp,hcurrent⟩
  rw [DB.prepare_of_current (DB.validate_of_prepare hprep) hcut] at hprep
  obtain rfl := (Prod.mk.inj hprep).1
  have hr : System.Regular leftover {} (.load o) := .inl hT
  rw [rollback_of_regular hr] at hroll
  obtain rfl := (Prod.mk.inj hroll).1
  have hstart : (if o.readOnly then d.cut keep else (d.cut keep).removeTmpDirs).loadCurrent =
      .ok t := by
    split <;> exact hl
  have hwal : (if o.readOnly then d.cut keep else (d.cut keep).removeTmpDirs).wal =
      d.wal.cut keep := by
    split <;> rfl
  have hcur : (if o.readOnly then d.cut keep else (d.cut keep).removeTmpDirs).current =
      some p.1 := by
    split <;> exact hcurrent
  generalize (if o.readOnly then d.cut keep else (d.cut keep).removeTmpDirs) = d₁
    at htarget hstart hwal hcur
  obtain ⟨t₀,hv₀,h₀,hc⟩ := Disk.loadTarget_eq_ok.mp htarget
  rw [hT] at hv₀ hc
  have hvp : p.1 = v := by simpa [Disk.startSnapshot,hcur] using hv₀
  rw [Disk.loadCurrent,hcur] at hstart
  subst hvp
  cases h₀.symm.trans hstart
  rw [if_pos (.inl rfl),hwal] at hc
  obtain ⟨t₁,hl₁,-,ht₁⟩ := hd.loadMultiTree hv hp hstores
  rw [Disk.loadCurrent,hcurrent] at hl
  cases hl.symm.trans hl₁
  refine ⟨?_,hwal⟩
  rw [(touches_openWith hopen).1.mtree.position_eq]
  rcases (catchupWAL_eq_ok (ht₁.sane hv)).mp hc with ⟨-,rfl⟩ | ⟨hlt,-⟩
  · rfl
  · omega

/-- A writable `Load` opens the database at the current snapshot or later, and every `Commit`
after it, and after further crashes and loads, appends its entry. -/
def Recovers (s : System) (o : Options) : Prop :=
  ∃ s₁ db, s.step (.load o) = some s₁ ∧ s₁.db = some db ∧
    (∀ c, s.disk.current = some c → c ≤ db.mtree.version) ∧
      ∀ s', Run System.step Resumes s₁ s' →
        ∀ db', s'.db = some db' → db'.phase = .idle → s'.Appends db'

section
variable (hok : s.Ok) (ho : o.validate = none) (hT : o.targetVersion = 0)
  (hstores : o.initialStores.Nodup)
include hok ho hT hstores

theorem recovers_of_load (hnone : s.db = none) (hp : s.pruner = none) {d₀ : Disk}
    (hload : DB.load o s.disk = DB.load o d₀) (hs : Faithful { s with disk := d₀ } h leftover)
    (hcurrent : ∀ c, s.disk.current = some c → d₀.current = some c) : s.Recovers o := by
  obtain ⟨db,hl⟩ := exists_load hs ho hT hstores
  have hstep := step_load hnone hp (hload.trans hl)
  have hg := goes_loaded hs hnone hp (.inl hT) hl
  have hlatest : Latest { s with
      disk := if o.readOnly then d₀ else d₀.removeTmpDirs, db := some db } h := by
    rintro x ⟨⟩
    exact latest_loaded hs hnone hT hl
  refine ⟨_,db,hstep,rfl,fun c hc => ?_,fun s' hrun db' hdb' hidle => ?_⟩
  · refine hlatest.current_le hg.faithful rfl ?_
    simp only
    split <;> exact hcurrent c hc
  · obtain ⟨hok₂,h₂,leftover₂,hs₂,hl₂⟩ := hlatest.resumes (hok.step hstep) hg.faithful hrun
    exact hl₂.appends hok₂ hs₂ hdb' hidle

theorem Torn.recovers_iff_covered (ht : s.Torn h leftover) : s.Recovers o ↔ s.Covered := by
  constructor
  · rintro ⟨s₁,db,hstep,hdb,-,hall⟩
    obtain ⟨d,keep,hd,hdisk⟩ := ht.disk
    obtain ⟨p,hp,hcurrent,hs⟩ := hd.current
    obtain ⟨t,hl,-,-⟩ := hd.loadMultiTree ht.valid hp hs
    have hl : d.loadCurrent = .ok t := by rw [Disk.loadCurrent,hcurrent]; exact hl
    refine ⟨t,by rw [hdisk]; exact hl,?_⟩
    by_contra hlt
    rw [hdisk] at hlt
    change ¬t.position ≤ (d.wal.cut keep).lastIndex at hlt
    cases turns_of_step hstep with
    | notLoaded hnone => cases hnone.symm.trans hdb
    | loaded hnone hp hload =>
      cases hdb
      rw [hdisk] at hload
      obtain ⟨hposition,hwal⟩ := position_of_load hd ht.valid hl (by omega) hT hload
      obtain ⟨_,_,_,-,-,-,hopen⟩ := load_eq_ok hload
      obtain ⟨htouch,hidle⟩ := touches_openWith hopen
      have hnext := (hall _ .refl db rfl hidle).next
      have hflight : db.flight = [] := by
        rw [flight_of_held_nil (by rw [hidle]; rfl),DB.chanFlight,htouch.walChan]
        rfl
      rw [flight_some rfl,hflight,hposition] at hnext
      simp only [hwal,beyond,filter_nil,length_nil,Nat.add_zero] at hnext
      omega
  · intro hc
    obtain ⟨h',leftover',hs⟩ := ht.faithful hc
    exact recovers_of_load hok ho hT hstores ht.db ht.pruner rfl hs fun _ hc => hc

theorem Blank.recovers_iff_create (hb : s.Blank) :
    s.Recovers o ↔ o.createIfMissing ∧ s.disk.currentTmp = none := by
  constructor
  · rintro ⟨s₁,db,hstep,hdb,-⟩
    cases turns_of_step hstep with
    | notLoaded hnone => cases hnone.symm.trans hdb
    | loaded hnone hp hload =>
      obtain ⟨d₁,v,mtree,hprep,hl,-⟩ := load_eq_ok hload
      rw [hb.prepare ho] at hprep
      split at hprep
      · rename_i hcreate
        split at hprep
        · rename_i hlink
          exact ⟨hcreate,hlink⟩
        · cases hprep
      · obtain rfl := (Prod.mk.inj hprep).1
        obtain ⟨t,hv,-⟩ := Disk.loadTarget_eq_ok.mp hl
        rw [hT] at hv
        simp [Disk.startSnapshot,hb.current] at hv
  · rintro ⟨hcreate,hlink⟩
    have hs := faithful_created o.initialVersion
    have hs' : Faithful { s with disk := created o.initialVersion } _ _ :=
      faithful_closed hs.valid hs.small hs.leftover hs.disk hb.db hb.pruner rfl
    refine recovers_of_load hok ho hT hstores hb.db hb.pruner ?_ hs' ?_
    · have hprep : DB.prepare o (created o.initialVersion) = (created o.initialVersion,none) := by
        rw [DB.prepare_of_current ho ⟨0,by simp [created,Disk.versions],rfl⟩]
        cases o.readOnly <;> rfl
      simp only [DB.load,hb.prepare ho,hcreate,hlink,if_true,hprep]
    · intro c hc
      cases hb.current.symm.trans hc

end

def snapshotActs : List Act :=
  [.load { createIfMissing := true, asyncCommitBuffer := -1 }] ++ commitActs ++ commitActs ++
    [.call .rewriteSnapshot]

end System

end Memiavl
