import Memiavl.Crash

/-! `GetLatestVersion` against `Load`. -/
namespace Memiavl

open MultiTree Transition

theorem walVersion_eq_version_iff {v i : ℕ} {iv : UInt32} (h : Committable v iv) :
    walVersion i iv = v ↔ i = entriesAt v iv ∧ (v = 0 → iv.toNat ≤ 1) := by
  unfold Committable entriesAt walIndex walVersion at *
  split_ifs <;> omega

namespace Disk

variable {d : Disk}

/-- The directory that the link `current` leads to. -/
def currentDir (d : Disk) : Option SnapshotDir := d.current.bind fun v => d.snapshots.lookup v

/-- `GetLatestVersion`: it reads the metadata of the current snapshot and the last index of
the log. -/
def getLatestVersion (d : Disk) : Except String ℕ :=
  match d.currentDir with
  | none => .ok 0
  | some dir =>
    match readMetadata dir with
    | .error e => .error e
    | .ok metadata => .ok (walVersion d.wal.lastIndex (UInt32.ofNat metadata.initialVersion))

theorem loadCurrent_eq (d : Disk) : d.loadCurrent =
    match d.currentDir with
    | none => .error "no such file or directory"
    | some dir => MultiTree.load dir := by
  unfold loadCurrent currentDir
  cases d.current with
  | none => rfl
  | some v => rfl

theorem currentDir_eq_none : d.currentDir = none ↔ ∀ v, d.current = some v → v ∉ d.versions := by
  unfold currentDir
  cases d.current with
  | none => simp
  | some v =>
    simp only [Option.bind_some,Option.some.injEq,forall_eq',versions,List.mem_map,not_exists,not_and]
    rw [List.lookup_eq_none_iff]
    exact forall₂_congr fun p _ => by rw [bne_iff_ne,ne_comm]

theorem getLatestVersion_of_loadCurrent {t : MultiTree} (h : d.loadCurrent = .ok t) :
    d.getLatestVersion = .ok (walVersion d.wal.lastIndex t.initialVersion) := by
  rw [loadCurrent_eq] at h
  unfold getLatestVersion
  split at h
  · cases h
  · rename_i dir hdir
    obtain ⟨hinfo,hmeta,hiv⟩ := load_eq_ok h
    have hread : readMetadata dir = .ok dir.metadata := by
      cases hr : readMetadata dir with
      | error e =>
        rw [MultiTree.load,hr] at h
        cases h
      | ok m =>
        unfold readMetadata at hr
        split_ifs at hr
        cases hr
        rfl
    have hiv' : UInt32.ofNat dir.metadata.initialVersion = t.initialVersion := by
      rw [← hiv,UInt32.ofNat_toNat]
    simp only [hread,hiv']

/-- The log reaches the current snapshot. Where it has no entry and the snapshot no version,
the initial version is none or the first one; where there is no snapshot, the log has no entry. -/
def LogReaches (d : Disk) : Prop :=
  match d.loadCurrent with
  | .error _ => d.wal.lastIndex = 0
  | .ok t => t.position ≤ d.wal.lastIndex ∧
      (d.wal.lastIndex = 0 → t.version = 0 → t.initialVersion.toNat ≤ 1)

instance (d : Disk) : Decidable d.LogReaches := by
  unfold LogReaches
  split <;> infer_instance

/-- The trees at the end of the log, from those of the current snapshot. -/
structure AtEnd (d : Disk) (t₀ t : MultiTree) : Prop where
  initialVersion : t.initialVersion = t₀.initialVersion
  committable : Committable t.version t.initialVersion
  version_le : t₀.version ≤ t.version
  position : t.position = max t₀.position d.wal.lastIndex
  stays : d.wal.lastIndex ≤ t₀.position → t = t₀

theorem loadTarget_zero {v : ℕ} {t : MultiTree} (hd : d.Sane) (h : d.loadTarget 0 = .ok (v,t)) :
    ∃ t₀, d.loadCurrent = .ok t₀ ∧ d.AtEnd t₀ t := by
  obtain ⟨t₀,hstart,hload,hcatch⟩ := loadTarget_eq_ok.mp h
  have hcurrent : d.loadCurrent = .ok t₀ := by
    unfold startSnapshot at hstart
    unfold loadCurrent
    cases hc : d.current with
    | none =>
      rw [hc] at hstart
      cases hstart
    | some c =>
      rw [hc] at hstart
      cases hstart
      exact hload
  rw [if_pos (.inl rfl)] at hcatch
  have hsane := hd.loadMultiTree hload
  obtain ⟨n,hn,hposition⟩ := caughtUp_catchupWAL hsane hcatch
  refine ⟨t₀,hcurrent,hn.initialVersion,hn.sane.committable,hn.version_le,hposition rfl,?_⟩
  intro hle
  obtain ⟨-,heq⟩ | ⟨hlt,-⟩ := (catchupWAL_eq_ok hsane).mp hcatch
  · exact heq
  · omega

/-- The last index of the log against the version at its end. -/
theorem AtEnd.walVersion_eq_iff {t₀ t : MultiTree} (h : d.AtEnd t₀ t) :
    walVersion d.wal.lastIndex t.initialVersion = t.version ↔ t₀.position ≤ d.wal.lastIndex ∧
      (d.wal.lastIndex = 0 → t₀.version = 0 → t₀.initialVersion.toNat ≤ 1) := by
  have hposition := h.position
  rw [walVersion_eq_version_iff h.committable,← MultiTree.position,h.initialVersion]
  constructor
  · rintro ⟨hlast,hzero⟩
    refine ⟨by omega,fun h0 hv => hzero ?_⟩
    rw [h.stays (by omega),hv]
  · rintro ⟨hle,hzero⟩
    refine ⟨by omega,fun hv => hzero ?_ ?_⟩
    · have : t.position = 0 := by rw [MultiTree.position,hv]; rfl
      omega
    · have := h.version_le
      omega

theorem AtEnd.version_eq_zero_iff {t₀ t : MultiTree} (h : d.AtEnd t₀ t) (h0 : t₀.version = 0) :
    t.version = 0 ↔ d.wal.lastIndex = 0 := by
  have hposition := h.position
  constructor
  · intro hv
    rw [MultiTree.position,hv] at hposition
    change 0 = _ at hposition
    omega
  · intro hlast
    rw [h.stays (by omega),h0]

variable {d' : Disk} {iv : UInt32} {t : MultiTree}

theorem version_initEmptyDB (h : d.initEmptyDB iv = (d',none)) (ht : d'.loadCurrent = .ok t) :
    t.version = 0 := by
  rw [initEmptyDB_eq_ok h] at ht
  obtain ⟨dir,hdir,hload⟩ := loadMultiTree_eq_ok ht
  obtain hdir | ⟨-,hne⟩ := mem_putDir_iff.mp hdir
  · cases hdir
    rw [version,(load_eq_ok hload).1]
    rfl
  · exact absurd rfl hne

theorem createDBIfNotExist_of_none (h : d.currentDir = none) (iv : UInt32) :
    d.createDBIfNotExist iv = d.initEmptyDB iv := by
  have hnone := currentDir_eq_none.mp h
  unfold createDBIfNotExist
  cases hc : d.current with
  | none => rfl
  | some v => exact if_neg (hnone v hc)

end Disk

namespace DB

variable {o : Options} {d d' : Disk}

/-- `Load` starts from the current snapshot, or from a new one without a version. -/
theorem loadCurrent_prepare (h : prepare o d = (d',none)) {t : MultiTree}
    (ht : d'.loadCurrent = .ok t) :
    d.loadCurrent = .ok t ∨ (d.currentDir = none ∧ t.version = 0) := by
  by_cases hnone : d.currentDir = none
  · refine .inr ⟨hnone,?_⟩
    have herr : ∀ t, d.loadCurrent ≠ .ok t := by
      intro t
      rw [Disk.loadCurrent_eq,hnone]
      nofun
    unfold prepare at h
    split at h
    · cases h
    · split at h
      · cases h
      · rename_i d₁ hcreate
        have ht' : d₁.loadCurrent = .ok t := by
          cases h
          split at ht <;> exact ht
        split at hcreate
        · rw [Disk.createDBIfNotExist_of_none hnone] at hcreate
          exact Disk.version_initEmptyDB hcreate ht'
        · cases hcreate
          exact absurd ht' (herr t)
  · left
    obtain ⟨c,hc,hmem⟩ : ∃ c, d.current = some c ∧ c ∈ d.versions := by
      rw [Disk.currentDir_eq_none] at hnone
      push Not at hnone
      exact hnone
    rw [prepare_of_current (validate_of_prepare h) ⟨c,hmem,hc⟩] at h
    cases h
    split at ht <;> exact ht

end DB

namespace System

variable {s : System} {o : Options} {db : DB} {d : Disk}

/-- `GetLatestVersion` gives the version that `Load` without a target opens, exactly when the log
reaches the current snapshot and an empty log stands for version 0. -/
theorem getLatestVersion_eq_load_iff (hd : d.Sane) (hT : o.targetVersion = 0)
    {d' : Disk} (hload : DB.load o d = (.ok db,d')) {v : ℕ} (hv : d.getLatestVersion = .ok v) :
    v = db.mtree.version ↔ d.LogReaches := by
  obtain ⟨d₁,c,mtree,hprep,htarget,-,hopen⟩ := load_eq_ok hload
  have hsane := sane_prepare hd o
  have hwal := wal_prepare o d
  rw [hprep] at hsane hwal
  rw [hT] at htarget
  obtain ⟨t₀,ht₀,hend⟩ := Disk.loadTarget_zero hsane htarget
  rw [(touches_openWith hopen).1.mtree.version_eq]
  have hiff := hend.walVersion_eq_iff
  rw [hwal] at hiff
  obtain hcurrent | ⟨hnone,hzero⟩ := DB.loadCurrent_prepare hprep ht₀
  · rw [Disk.getLatestVersion_of_loadCurrent hcurrent,← hend.initialVersion] at hv
    cases hv
    rw [Disk.LogReaches,hcurrent]
    exact hiff
  · rw [Disk.getLatestVersion,hnone] at hv
    cases hv
    rw [eq_comm,hend.version_eq_zero_iff hzero,hwal,Disk.LogReaches,Disk.loadCurrent_eq,hnone]

/-- A version after a crash that has lost nothing. -/
theorem getLatestVersion_eq_load_snapshot : ∃ (s : System) (o : Options) (db : DB) (d : Disk),
    s.Reachable ∧ DB.load o s.disk = (.ok db,d) ∧ s.disk.current = some 2 ∧
      s.disk.getLatestVersion = .ok db.mtree.version := by
  have hex : (exec System.step (fun _ _ => True) (snapshotActs ++ [.crash 2]) {}).any
      (fun s => s.disk.current = some 2 ∧ s.disk.LogReaches ∧
        (DB.load {} s.disk).1.toOption.isSome ∧ s.disk.getLatestVersion.toOption.isSome) = true := by
    decide +kernel
  obtain ⟨s,hs,hex⟩ := Run.exists_of_exec hex
  obtain ⟨hcurrent,hreaches,hload,hlatest⟩ := of_decide_eq_true hex
  obtain ⟨db,hload⟩ := Option.isSome_iff_exists.mp hload
  obtain ⟨v,hlatest⟩ := Option.isSome_iff_exists.mp hlatest
  have hload : DB.load {} s.disk = (.ok db,_) := Prod.ext (ok_of_toOption hload) rfl
  have hlatest := ok_of_toOption hlatest
  have hv := (getLatestVersion_eq_load_iff (Reachable.ok hs).disk rfl hload hlatest).mpr hreaches
  exact ⟨s,{},db,_,hs,hload,hcurrent,hv ▸ hlatest⟩

/-- A new database with initial version 10, and one whose log ends below its snapshot. -/
theorem getLatestVersion_differs :
    (∃ (s : System) (db : DB) (d : Disk), s.Reachable ∧ DB.load {} s.disk = (.ok db,d) ∧
      s.disk.getLatestVersion = .ok 9 ∧ db.mtree.version = 0) ∧
    ∃ (s : System) (db : DB) (d : Disk), s.Reachable ∧ DB.load {} s.disk = (.ok db,d) ∧
      s.disk.getLatestVersion = .ok 1 ∧ db.mtree.version = 2 := by
  have hnew : (exec System.step (fun _ _ => True)
      [.load { createIfMissing := true, initialVersion := 10 },.call .close] {}).any (fun s =>
        s.disk.getLatestVersion.toOption = some 9 ∧
          (DB.load {} s.disk).1.toOption.any fun db => db.mtree.version = 0) = true := by
    decide +kernel
  have hlost : (exec System.step (fun _ _ => True) (snapshotActs ++ [.crash 1]) {}).any
      (fun s => s.disk.getLatestVersion.toOption = some 1 ∧
        (DB.load {} s.disk).1.toOption.any fun db => db.mtree.version = 2) = true := by
    decide +kernel
  constructor
  · obtain ⟨s,hs,hex⟩ := Run.exists_of_exec hnew
    obtain ⟨hlatest,hex⟩ := of_decide_eq_true hex
    obtain ⟨db,hload,hv⟩ := (Option.any_eq_true ..).mp hex
    exact ⟨s,db,_,hs,Prod.ext (ok_of_toOption hload) rfl,ok_of_toOption hlatest,of_decide_eq_true hv⟩
  · obtain ⟨s,hs,hex⟩ := Run.exists_of_exec hlost
    obtain ⟨hlatest,hex⟩ := of_decide_eq_true hex
    obtain ⟨db,hload,hv⟩ := (Option.any_eq_true ..).mp hex
    exact ⟨s,db,_,hs,Prod.ext (ok_of_toOption hload) rfl,ok_of_toOption hlatest,of_decide_eq_true hv⟩

end System

end Memiavl
