import Memiavl.LoadTarget

/-! Pruning: which snapshots it leaves, and that every version from the earliest of them on can
still be loaded. -/
namespace Memiavl

open MultiTree List Option Transition

namespace MultiTree

variable {wal wal' : IndexedLog WALEntry} {t t' : MultiTree}

theorem replayFrom_congr {i n : ℕ} (h : ∀ k, i ≤ k → k < i+n → wal.read k = wal'.read k) :
    replayFrom wal t i n = replayFrom wal' t i n := by
  induction n generalizing t i with
  | zero => rfl
  | succ n ih =>
    have hi := h i le_rfl (by omega)
    unfold replayFrom
    rw [hi]
    cases wal'.read i with
    | none => rfl
    | some e =>
      simp only
      cases t.replay e with
      | error e => rfl
      | ok t => exact ih fun k hk hkn => h k (by omega) (by omega)

/-- A catch-up does not notice that entries were removed which it does not read. -/
theorem catchupWAL_truncation (ht : t.Sane) (hwal : wal'.TruncationOf wal)
    (hbase : wal'.base ≤ t.position) (endVersion : ℕ) :
    t.catchupWAL wal' endVersion = t.catchupWAL wal endVersion := by
  have hlast := hwal.lastIndex_eq
  have hfirst : walIndex (nextVersion t.version t.initialVersion) t.initialVersion = t.position+1 :=
    walIndex_nextVersion ht.committable
  have hreplay : ∀ n, replayFrom wal' t (t.position+1) n = replayFrom wal t (t.position+1) n :=
    fun n => replayFrom_congr fun k hk _ => hwal.read_eq (by omega)
  simp only [catchupWAL,hlast,hfirst,hreplay]

/-- What can be replayed as a whole can be replayed in part. -/
theorem replayFrom_take {i n : ℕ} (h : replayFrom wal t i n = .ok t') {m : ℕ} (hm : m ≤ n) :
    ∃ t₁, replayFrom wal t i m = .ok t₁ := by
  induction n generalizing t i m with
  | zero =>
    obtain rfl : m = 0 := by omega
    exact ⟨t,rfl⟩
  | succ n ih =>
    cases m with
    | zero => exact ⟨t,rfl⟩
    | succ m =>
      unfold replayFrom at h ⊢
      split at h
      · cases h
      · split at h
        · cases h
        · exact ih h (by omega)

end MultiTree

namespace Disk

/-- A directory from which every version from its earliest snapshot to the latest one can be
loaded: the snapshots can be read, and the log holds the entries after the earliest of them,
which can be replayed. -/
structure Intact (d : Disk) (initialVersion : UInt32) : Prop where
  sorted : d.versions.Pairwise (· < ·)
  parsed : ∀ v ∈ d.versions, v < 2^31
  snapshot : ∀ v ∈ d.versions, ∃ t, d.loadMultiTree v = .ok t ∧ t.version = v ∧
    t.initialVersion = initialVersion ∧ t.Sane ∧ ∃ t', t.catchupWAL d.wal 0 = .ok t'
  covered : ∀ v ∈ d.versions, d.wal.base ≤ entriesAt v initialVersion
  /-- Indices are 64-bit integers that stay far from their bound. -/
  small : d.wal.lastIndex < 2^63

variable {d : Disk} {T v : ℕ}

theorem seekIn_reverse_eq_ok {vs : List ℕ} (hsorted : vs.Pairwise (· < ·))
    (hparsed : ∀ v ∈ vs, v < 2^31) : seekIn T vs.reverse = .ok v ↔
      v ∈ vs ∧ v ≤ T ∧ ∀ w ∈ vs, w ≤ T → w ≤ v := by
  have hrev := hsorted.reverse
  rw [seekIn_eq_ok]
  constructor
  · rintro ⟨larger,rest,heq,hl,hv,-⟩
    rw [heq,pairwise_append,pairwise_cons] at hrev
    refine ⟨mem_reverse.mp (by rw [heq]; simp),hv,fun w hw hwT => ?_⟩
    rw [← mem_reverse,heq,mem_append,mem_cons] at hw
    rcases hw with hw | rfl | hw
    · have := (hl w hw).1
      omega
    · exact le_rfl
    · exact (hrev.2.1.1 w hw).le
  · rintro ⟨hmem,hv,hmax⟩
    obtain ⟨larger,rest,heq⟩ := append_of_mem (mem_reverse.mpr hmem)
    refine ⟨larger,rest,heq,fun w hw => ?_,hv,hparsed v hmem⟩
    have hwmem : w ∈ vs := mem_reverse.mp (by rw [heq]; simp [hw])
    rw [heq,pairwise_append] at hrev
    have hlt := hrev.2.2 w hw v (by simp)
    refine ⟨?_,hparsed w hwmem⟩
    by_contra hle
    have := hmax w hwmem (by omega)
    omega

theorem seekSnapshot_eq_ok (hsorted : d.versions.Pairwise (· < ·))
    (hparsed : ∀ v ∈ d.versions, v < 2^31) : d.seekSnapshot T = .ok v ↔
      v ∈ d.versions ∧ v ≤ T ∧ ∀ w ∈ d.versions, w ≤ T → w ≤ v :=
  seekIn_reverse_eq_ok hsorted hparsed

theorem exists_largest (h : ∃ v ∈ d.versions, v ≤ T) :
    ∃ v ∈ d.versions, v ≤ T ∧ ∀ w ∈ d.versions, w ≤ T → w ≤ v := by
  obtain ⟨v,hv,hmax⟩ := (d.versions.filter (· ≤ T)).toFinset.exists_max_image id (by
    obtain ⟨v,hv,hle⟩ := h
    exact ⟨v,by simp [hv,hle]⟩)
  simp only [List.mem_toFinset,mem_filter,decide_eq_true_eq,id] at hv hmax
  exact ⟨v,hv.1,hv.2,fun w hw hle => hmax w ⟨hw,hle⟩⟩

end Disk

/-- Entries of the log after the position of a version lead beyond that version. -/
theorem entriesAt_lt_of_walVersion {v i : ℕ} {iv : UInt32} (hi : 0 < i) (hv : Committable v iv)
    (hlt : v < walVersion i iv) :
    entriesAt v iv < i ∧ walIndex (walVersion i iv) iv = i := by
  unfold Committable at hv
  unfold walVersion at hlt ⊢
  unfold entriesAt walIndex
  split_ifs at hlt ⊢ <;> omega

namespace Disk

variable {d d' : Disk} {iv : UInt32} {T v : ℕ}

theorem Intact.loadTarget (h : d.Intact iv) (hhas : d.Has iv T) (hge : ∃ v ∈ d.versions, v ≤ T) :
    ∃ v t, d.loadTarget T = .ok (v,t) ∧ t.version = T := by
  obtain ⟨hT,hhas⟩ := hhas
  obtain ⟨v,hv,hvT,hmax⟩ := exists_largest hge
  obtain ⟨t₀,hl,hversion,hiv,hsane,tend,hcatch⟩ := h.snapshot v hv
  have hstart : d.startSnapshot T = .ok v :=
    (startSnapshot_eq_ok hT).mpr ((seekSnapshot_eq_ok h.sorted h.parsed).mpr ⟨hv,hvT,hmax⟩)
  have hpos : t₀.position = entriesAt v iv := by rw [position,hversion,hiv]
  by_cases hlt : v < T
  · -- The version is not that of a snapshot, so the log has its entry.
    have hnot : T ∉ d.versions := fun hmem => by
      have := hmax T hmem le_rfl
      omega
    obtain ⟨i,⟨hbase,hi⟩,hw⟩ := hhas.resolve_left hnot
    have hcom := hsane.committable
    rw [hversion,hiv] at hcom
    obtain ⟨hbefore,hindex⟩ := entriesAt_lt_of_walVersion (by omega) hcom (hw ▸ hlt)
    have hend : t₀.endIndex d.wal T = i := by rw [endIndex,if_neg (by omega),hiv,← hw,hindex]
    obtain ⟨hlast,-⟩ | ⟨hlast,-,tfull,hfull,-⟩ := (catchupWAL_eq_ok hsane).mp hcatch
    · omega
    rw [endIndex,if_pos rfl,min_self] at hfull
    obtain ⟨t₁,hr⟩ := replayFrom_take hfull (m := i-t₀.position) (by omega)
    have hcaught : t₀.catchupWAL d.wal T = .ok t₁.updateCommitInfo :=
      (catchupWAL_eq_ok hsane).mpr (.inr ⟨hlast,by omega,t₁,by
        rw [hend,min_eq_left hi]
        exact hr,rfl⟩)
    refine ⟨v,t₁.updateCommitInfo,loadTarget_eq_ok.mpr ⟨t₀,hstart,hl,?_⟩,?_⟩
    · rw [if_pos (.inr (by omega)),hcaught]
    · have hc := caughtUp_replayFrom hsane hr
      have hposition : t₁.position = i := by
        rw [hc.position]
        omega
      have hback := walVersion_entriesAt hc.sane.committable (by
        change 0 < t₁.position
        omega)
      change walVersion t₁.position t₁.initialVersion = t₁.version at hback
      change t₁.version = T
      rw [← hback,hposition,hc.initialVersion,hiv,hw]
  · obtain rfl : v = T := by omega
    refine ⟨v,t₀,loadTarget_eq_ok.mpr ⟨t₀,hstart,hl,?_⟩,hversion⟩
    rw [if_neg (by omega)]

theorem toPrune_eq {current : ℕ} {vs : List ℕ} (h : ∀ v ∈ vs, v < 2^31) (counter : ℕ) :
    toPrune current counter vs = .ok ((vs.filter (· < current)).drop counter) := by
  induction vs generalizing counter with
  | nil => simp [toPrune]
  | cons v vs ih =>
    have ih := ih fun w hw => h w (mem_cons_of_mem _ hw)
    unfold toPrune
    simp only [parseVersion,if_pos (h v mem_cons_self)]
    by_cases hge : current ≤ v
    · rw [if_pos hge,ih,filter_cons_of_neg (by simpa using hge)]
    · rw [if_neg hge,filter_cons_of_pos (by simpa using hge)]
      cases counter with
      | zero => simp [ih]
      | succ counter => simp [ih]

/-- The versions that stay: those from the current one on, and the `k` largest before it. -/
def kept (versions : List ℕ) (current k : ℕ) : List ℕ :=
  ((versions.filter (· < current)).reverse.take k).reverse ++ versions.filter (current ≤ ·)

theorem append_kept {versions : List ℕ} (h : versions.Pairwise (· < ·)) (current k : ℕ) :
    ((versions.filter (· < current)).reverse.drop k).reverse ++ kept versions current k =
      versions := by
  have hsplit : versions.filter (· < current) ++ versions.filter (current ≤ ·) = versions := by
    induction versions with
    | nil => rfl
    | cons v vs ih =>
      obtain ⟨hv,hvs⟩ := pairwise_cons.mp h
      by_cases hlt : v < current
      · simp [hlt,ih hvs]
      · have hnone : vs.filter (· < current) = [] := by
          rw [filter_eq_nil_iff]
          intro w hw
          have := hv w hw
          simp only [decide_eq_true_eq]
          omega
        have hall : vs.filter (current ≤ ·) = vs := by
          rw [filter_eq_self]
          intro w hw
          have := hv w hw
          simp only [decide_eq_true_eq]
          omega
        simp [hlt,hnone,hall,not_lt.mp hlt]
  rw [kept,← append_assoc,← reverse_append,take_append_drop,reverse_reverse,
    hsplit]

def removeAll (d : Disk) (vs : List ℕ) : Disk := vs.foldl removeSnapshot d

theorem removeAll_eq {vs : List ℕ} (h : ∀ v ∈ vs, v ∉ d.tmpDirs.map Prod.fst) :
    d.removeAll vs = { d with snapshots := d.snapshots.filter fun p => p.1 ∉ vs } := by
  induction vs generalizing d with
  | nil => simp [removeAll]
  | cons v vs ih =>
    obtain ⟨hv,h⟩ := forall_mem_cons.mp h
    rw [removeAll,foldl_cons,← removeAll,removeSnapshot,if_neg hv,ih (by exact h)]
    simp only [removeDir,List.filter_filter,mem_cons,not_or]
    congr 1
    refine List.filter_congr fun p _ => ?_
    rw [← Bool.decide_and,decide_eq_decide]
    exact And.comm

theorem versions_removeAll {vs : List ℕ} (h : ∀ v ∈ vs, v ∉ d.tmpDirs.map Prod.fst) :
    (d.removeAll vs).versions = d.versions.filter (· ∉ vs) := by
  rw [removeAll_eq h,versions,versions,List.filter_map]
  rfl

theorem filter_not_mem_drop {versions : List ℕ} (h : versions.Pairwise (· < ·)) (current k : ℕ) :
    versions.filter (· ∉ (versions.reverse.filter (· < current)).drop k) =
      kept versions current k := by
  have heq := append_kept h current k
  rw [filter_reverse]
  generalize (versions.filter (· < current)).reverse.drop k = removed at heq ⊢
  rw [← heq,pairwise_append] at h
  nth_rewrite 1 [← heq]
  rw [filter_append,filter_eq_nil_iff.mpr (by simp),nil_append,
    filter_eq_self.mpr]
  intro v hv
  simp only [decide_eq_true_eq]
  intro hmem
  exact absurd (h.2.2 v (mem_reverse.mpr hmem) v hv) (lt_irrefl v)

/-- The index at which the log is cut, seen from a snapshot that is not before the earliest. -/
theorem walIndex_succ_le {e last : ℕ} (hle : e ≤ v) (hlast : last < 2^63)
    (hin : walIndex (e+1) iv ≤ last) : walIndex (e+1) iv ≤ entriesAt v iv+1 := by
  have hiv := iv.toNat_lt
  unfold walIndex at hin
  unfold entriesAt walIndex
  split_ifs at hin ⊢ <;> omega

/-- The log is cut after the earliest snapshot, or not at all if its name cannot be parsed. -/
theorem truncateWAL_eq {e : ℕ} {vs : List ℕ} (h : d.versions = e::vs) :
    ∃ e' ≤ e, d.truncateWAL iv = match d.wal.truncateFront (walIndex (e'+1) iv) with
      | none => d
      | some wal => { d with wal } := by
  have hfirst : d.firstSnapshotVersion = .ok e ∨ ∃ err, d.firstSnapshotVersion = .error err := by
    simp only [firstSnapshotVersion,h,parseVersion]
    by_cases he : e < 2^31
    · rw [if_pos he]
      by_cases h0 : e = 0
      · exact .inr ⟨_,if_pos h0⟩
      · exact .inl (if_neg h0)
    · rw [if_neg he]
      exact .inr ⟨_,rfl⟩
  rcases hfirst with hfirst | ⟨err,hfirst⟩
  · refine ⟨e,le_rfl,?_⟩
    cases hcut : d.wal.truncateFront (walIndex (e+1) iv) <;> simp only [truncateWAL,hfirst,hcut]
  · refine ⟨0,Nat.zero_le e,?_⟩
    cases hcut : d.wal.truncateFront (walIndex (0+1) iv) <;> simp only [truncateWAL,hfirst,hcut]

/-- The log is cut right before the entries that follow the earliest snapshot. -/
theorem base_truncateWAL (hsorted : d.versions.Pairwise (· < ·))
    (hcovered : ∀ v ∈ d.versions, d.wal.base ≤ entriesAt v iv) (hsmall : d.wal.lastIndex < 2^63)
    (hv : v ∈ d.versions) : (d.truncateWAL iv).wal.base ≤ entriesAt v iv := by
  cases hversions : d.versions with
  | nil =>
    rw [hversions] at hv
    cases hv
  | cons e vs =>
    have hle : e ≤ v := by
      rw [hversions] at hv hsorted
      rcases mem_cons.mp hv with rfl | hv
      · exact le_rfl
      · exact ((pairwise_cons.mp hsorted).1 v hv).le
    obtain ⟨e',he',heq⟩ := @truncateWAL_eq d iv e vs hversions
    rw [heq]
    split
    · exact hcovered v hv
    · rename_i wal hwal
      obtain ⟨⟨hb,hl⟩,rfl⟩ := IndexedLog.truncateFront_eq_some.mp hwal
      have := walIndex_succ_le (he'.trans hle) hsmall hl
      simp only [IndexedLog.dropFront]
      omega

/-- `Load` at `T` reads the same snapshot and the same entries after pruning. -/
theorem Intact.loadTarget_eq (h : d.Intact iv) {removed : List ℕ}
    (hversions : d.versions = removed ++ d'.versions)
    (hload : ∀ v ∈ d'.versions, d'.loadMultiTree v = d.loadMultiTree v)
    (hwal : d'.wal.TruncationOf d.wal) (hbase : ∀ v ∈ d'.versions, d'.wal.base ≤ entriesAt v iv)
    (hT : 0 < T) (hge : ∃ v ∈ d'.versions, v ≤ T) : d'.loadTarget T = d.loadTarget T := by
  have hsorted := h.sorted
  rw [hversions,pairwise_append] at hsorted
  have hsub : ∀ w ∈ d'.versions, w ∈ d.versions := fun w hw => by
    rw [hversions]
    exact mem_append_right _ hw
  obtain ⟨v,hv,hvT,hmax⟩ := exists_largest hge
  obtain ⟨t₀,hl,hversion,hiv,hsane,-⟩ := h.snapshot v (hsub v hv)
  have hstart' : d'.startSnapshot T = .ok v := (startSnapshot_eq_ok hT).mpr
    ((seekSnapshot_eq_ok hsorted.2.1 fun w hw => h.parsed w (hsub w hw)).mpr ⟨hv,hvT,hmax⟩)
  have hstart : d.startSnapshot T = .ok v := by
    refine (startSnapshot_eq_ok hT).mpr ((seekSnapshot_eq_ok h.sorted h.parsed).mpr
      ⟨hsub v hv,hvT,fun w hw hwT => ?_⟩)
    rw [hversions,mem_append] at hw
    rcases hw with hw | hw
    · exact (hsorted.2.2 w hw v hv).le
    · exact hmax w hw hwT
  have hcatch : t₀.catchupWAL d'.wal T = t₀.catchupWAL d.wal T :=
    catchupWAL_truncation hsane hwal (by rw [position,hversion,hiv]; exact hbase v hv) T
  simp only [Disk.loadTarget,hstart,hstart',hload v hv,hl,hcatch]

end Disk

/-- There is nothing to create in an existing directory. -/
theorem DB.prepare_of_current {o : Options} {d : Disk} (ho : o.validate = none)
    (hcurrent : ∃ c ∈ d.versions, d.current = some c) :
    DB.prepare o d = (if o.readOnly then d else d.removeTmpDirs,none) := by
  obtain ⟨c,hc,hcur⟩ := hcurrent
  simp only [prepare,ho,Disk.createDBIfNotExist,hcur,if_pos hc,ite_self]

theorem DB.validate_of_prepare {o : Options} {d d' : Disk} (h : DB.prepare o d = (d',none)) :
    o.validate = none := by
  cases ho : o.validate with
  | none => rfl
  | some e =>
    rw [prepare,ho] at h
    cases h

theorem DB.load_of_loadTarget {o : Options} {d : Disk} {v : ℕ} {mtree : MultiTree}
    (ho : o.validate = none) (hover : o.loadForOverwriting = false)
    (hcurrent : ∃ c ∈ d.versions, d.current = some c)
    (hl : d.loadTarget o.targetVersion.toNat = .ok (v,mtree)) (hv : mtree.version ≠ 0) :
    DB.load o d = (.ok { opts := o, mtree },if o.readOnly then d else d.removeTmpDirs) := by
  have hl' : (if o.readOnly then d else d.removeTmpDirs).loadTarget o.targetVersion.toNat =
      .ok (v,mtree) := by
    split <;> exact hl
  simp only [load,prepare_of_current ho hcurrent,hl',rollback,hover,Bool.false_and,Bool.false_eq_true,if_false,openWith,hv,
    false_and,and_false]

namespace System

variable {s s' : System}

/-- The directory after pruning; without an open database the log stays as it is. -/
def prunedDisk (s : System) (vs : List ℕ) : Disk :=
  match s.db with
  | none => s.disk.removeAll vs
  | some db => (s.disk.removeAll vs).truncateWAL db.mtree.initialVersion

/-- The goroutine on its way through the snapshots `vs` that it removes. -/
inductive Pruning (s : System) (k : ℕ) (vs : List ℕ) : System → Prop
  | starting {t : System} : t.pruner = some { keepRecent := k } → t.disk = s.disk →
      Pruning s k vs t
  | removing {t : System} {done rest : List ℕ} : vs = done ++ rest →
      t.pruner = some { keepRecent := k, stage := .removing rest } →
      t.disk = s.disk.removeAll done → Pruning s k vs t
  | ended {t : System} : t.pruner = none → t.disk = s.prunedDisk vs → Pruning s k vs t

theorem pruning_run {c k : ℕ} (hparsed : ∀ v ∈ s.disk.versions, v < 2^31)
    (hc : s.disk.currentVersion = .ok c) (hp : s.pruner = some { keepRecent := k })
    (hrun : Run System.step (fun _ a => a = .prune) s s') :
    Pruning s k ((s.disk.versions.reverse.filter (· < c)).drop k) s' := by
  have hprune := @Disk.toPrune_eq c s.disk.versions.reverse
    (fun v hv => hparsed v (mem_reverse.mp hv)) k
  generalize (s.disk.versions.reverse.filter (· < c)).drop k = vs at hprune ⊢
  have hinv : s'.db = s.db ∧ Pruning s k vs s' := by
    refine hrun.invariant (I := fun t => t.db = s.db ∧ Pruning s k vs t)
      ⟨rfl,.starting hp rfl⟩ ?_
    rintro t a t' ⟨hdb,ht⟩ rfl hstep
    cases ht with
    | starting hpt hd =>
      simp only [System.step,hpt,bind_eq_bind,bind_some,pruneStep,hd,hc,hprune,
        some.injEq] at hstep
      subst hstep
      exact ⟨hdb,.removing (show vs = [] ++ vs from rfl) rfl rfl⟩
    | @removing done rest hvs hpt hd =>
      cases rest with
      | cons v rest =>
        simp only [System.step,hpt,bind_eq_bind,bind_some,pruneStep,
          some.injEq] at hstep
        subst hstep
        refine ⟨hdb,.removing (show vs = (done ++ [v]) ++ rest by simp [hvs]) rfl ?_⟩
        simp only [hd,Disk.removeAll,foldl_append,foldl_cons,foldl_nil]
      | nil =>
        rw [List.append_nil] at hvs
        subst hvs
        simp only [System.step,hpt,bind_eq_bind,bind_some,pruneStep,
          some.injEq] at hstep
        have hdisk : s.prunedDisk vs = match t.db with
            | none => t.disk
            | some db => t.disk.truncateWAL db.mtree.initialVersion := by
          rw [prunedDisk,← hdb,hd]
        cases hdb' : t.db with
        | none | some db =>
          simp only [hdb'] at hstep hdisk
          subst hstep
          exact ⟨hdb'.symm.trans hdb,.ended rfl hdisk.symm⟩
    | ended hpt hd =>
      simp only [System.step,hpt,bind_eq_bind,bind_none] at hstep
      cases hstep
  exact hinv.2

end System

namespace Disk

variable {d : Disk} {iv : UInt32} {vs : List ℕ} {v : ℕ}

theorem lookup_filter {dirs : List (ℕ × SnapshotDir)} {q : ℕ → Bool} (h : q v = true) :
    (dirs.filter fun p => q p.1).lookup v = dirs.lookup v := by
  induction dirs with
  | nil => rfl
  | cons p dirs ih =>
    cases hp : q p.1 with
    | false =>
      have hne : v ≠ p.1 := by
        rintro rfl
        exact Bool.noConfusion (h.symm.trans hp)
      rw [filter_cons_of_neg (by simp [hp]),ih,lookup_cons,beq_false_of_ne hne]
    | true => rw [filter_cons_of_pos (by exact hp),lookup_cons,lookup_cons,ih]

theorem loadMultiTree_removeAll (htmp : ∀ w ∈ vs, w ∉ d.tmpDirs.map Prod.fst) (h : v ∉ vs) :
    (d.removeAll vs).loadMultiTree v = d.loadMultiTree v := by
  have hl : (d.snapshots.filter fun p => p.1 ∉ vs).lookup v = d.snapshots.lookup v :=
    @lookup_filter v d.snapshots (fun w => w ∉ vs) (decide_eq_true h)
  rw [removeAll_eq htmp,loadMultiTree,loadMultiTree,hl]

theorem truncateWAL_eq_setWal (d : Disk) (iv : UInt32) :
    d.truncateWAL iv = { d with wal := (d.truncateWAL iv).wal } := by
  unfold truncateWAL
  simp only
  split <;> rfl

theorem truncateWAL_dirs (d : Disk) (iv : UInt32) : (d.truncateWAL iv).snapshots = d.snapshots ∧
    (d.truncateWAL iv).current = d.current := by
  unfold truncateWAL
  simp only
  split <;> exact ⟨rfl,rfl⟩

end Disk

namespace System

variable {s s' : System}

/-- The directory after pruning has the kept snapshots as they were, and the entries of the log
that follow them. -/
theorem prunedDisk_spec {iv : UInt32} {c k : ℕ} (hd : s.disk.Intact iv)
    (hdb : ∀ db ∈ s.db, db.mtree.initialVersion = iv) {vs : List ℕ}
    (hvs : vs = (s.disk.versions.reverse.filter (· < c)).drop k)
    (htmp : ∀ v ∈ s.disk.versions, v < c → v ∉ s.disk.tmpDirs.map Prod.fst) :
    (s.prunedDisk vs).versions = Disk.kept s.disk.versions c k ∧
      (s.prunedDisk vs).current = s.disk.current ∧
      (∀ v ∈ (s.prunedDisk vs).versions,
        (s.prunedDisk vs).loadMultiTree v = s.disk.loadMultiTree v) ∧
      (s.prunedDisk vs).wal.TruncationOf s.disk.wal ∧
      ∀ v ∈ (s.prunedDisk vs).versions, (s.prunedDisk vs).wal.base ≤ entriesAt v iv := by
  have htmp : ∀ v ∈ vs, v ∉ s.disk.tmpDirs.map Prod.fst := by
    intro v hv
    rw [hvs] at hv
    obtain ⟨hv,hlt⟩ := mem_filter.mp (mem_of_mem_drop hv)
    exact htmp v (mem_reverse.mp hv) (of_decide_eq_true hlt)
  have hremoved : (s.disk.removeAll vs).versions = Disk.kept s.disk.versions c k := by
    rw [Disk.versions_removeAll htmp,hvs,Disk.filter_not_mem_drop hd.sorted]
  have hload : ∀ v ∈ Disk.kept s.disk.versions c k,
      (s.disk.removeAll vs).loadMultiTree v = s.disk.loadMultiTree v := by
    intro v hv
    rw [← hremoved,Disk.versions_removeAll htmp,mem_filter,decide_eq_true_eq] at hv
    exact Disk.loadMultiTree_removeAll htmp hv.2
  have hsub : ∀ v ∈ Disk.kept s.disk.versions c k, v ∈ s.disk.versions := by
    intro v hv
    rw [← hremoved,Disk.versions_removeAll htmp] at hv
    exact mem_of_mem_filter hv
  have hwal : (s.disk.removeAll vs).wal = s.disk.wal := by rw [Disk.removeAll_eq htmp]
  have hcurrent : (s.disk.removeAll vs).current = s.disk.current := by rw [Disk.removeAll_eq htmp]
  unfold prunedDisk
  cases hs : s.db with
  | none =>
    simp only [hremoved,hwal]
    exact ⟨trivial,hcurrent,hload,.refl _,fun v hv => hd.covered v (hsub v hv)⟩
  | some db =>
    obtain ⟨hsnap,hcur⟩ := (s.disk.removeAll vs).truncateWAL_dirs iv
    have hversions : ((s.disk.removeAll vs).truncateWAL iv).versions =
        Disk.kept s.disk.versions c k := by
      rw [← hremoved,Disk.versions,Disk.versions,hsnap]
    have htrunc := Disk.truncationOf_truncateWAL (s.disk.removeAll vs) iv
    rw [hwal] at htrunc
    simp only [hdb db hs,hversions]
    refine ⟨trivial,hcur.trans hcurrent,fun v hv => ?_,htrunc,fun v hv => ?_⟩
    · rw [← hload v hv,Disk.loadMultiTree,Disk.loadMultiTree,hsnap]
    · refine Disk.base_truncateWAL ?_ ?_ ?_ ?_
      · rw [Disk.versions_removeAll htmp]
        exact hd.sorted.filter _
      · rw [hremoved,hwal]
        exact fun w hw => hd.covered w (hsub w hw)
      · rw [hwal]
        exact hd.small
      · rwa [hremoved]

/-- Pruning leaves the snapshots from the current one on and the `k` newest before it; a version
from the earliest of these on that could be loaded before is loaded as before. No removal fails
when no temporary directory is in its way. -/
theorem prune_keeps_versions {iv : UInt32} {c k : ℕ} (hd : s.disk.Intact iv)
    (hcurrent : s.disk.current = some c) (hc : c ∈ s.disk.versions)
    (htmp : ∀ v ∈ s.disk.versions, v < c → v ∉ s.disk.tmpDirs.map Prod.fst)
    (hdb : ∀ db ∈ s.db, db.mtree.initialVersion = iv)
    (hp : s.pruner = some { keepRecent := k })
    (hrun : Run System.step (fun _ a => a = .prune) s s') (hend : s'.pruner = none) :
    s'.disk.versions = Disk.kept s.disk.versions c k ∧
      ∀ o : Options, o.validate = none → o.loadForOverwriting = false →
        s.disk.Has iv o.targetVersion.toNat →
        (∃ v ∈ s'.disk.versions, v ≤ o.targetVersion.toNat) →
        ∃ db d d', DB.load o s.disk = (.ok db,d) ∧ DB.load o s'.disk = (.ok db,d') ∧
          db.mtree.version = o.targetVersion.toNat := by
  have hcv : s.disk.currentVersion = .ok c := by
    simp only [Disk.currentVersion,hcurrent,parseVersion,if_pos (hd.parsed c hc)]
  have hdisk : s'.disk = s.prunedDisk ((s.disk.versions.reverse.filter (· < c)).drop k) := by
    cases pruning_run hd.parsed hcv hp hrun with
    | starting hp' _ | removing _ hp' _ => rw [hend] at hp'; cases hp'
    | ended _ h => exact h
  obtain ⟨hversions,hcurrent',hload,hwal,hbase⟩ := prunedDisk_spec hd hdb
    (rfl : _ = (s.disk.versions.reverse.filter (· < c)).drop k) htmp
  rw [← hdisk] at hversions hcurrent' hload hwal hbase
  refine ⟨hversions,fun o ho hover hhas hge => ?_⟩
  have hsplit := Disk.append_kept hd.sorted c k
  rw [← hversions] at hsplit
  have hc' : c ∈ s'.disk.versions := by
    rw [hversions,Disk.kept]
    exact mem_append_right _ (mem_filter.mpr ⟨hc,by simp⟩)
  have htarget := hd.loadTarget_eq hsplit.symm hload hwal hbase hhas.1 hge
  obtain ⟨v,t,hl,hv⟩ := hd.loadTarget hhas (hge.imp fun w hw => ⟨by
    rw [← hsplit]
    exact mem_append_right _ hw.1,hw.2⟩)
  have hne : t.version ≠ 0 := by
    have := hhas.1
    omega
  exact ⟨_,_,_,DB.load_of_loadTarget ho hover ⟨c,hc,hcurrent⟩ hl hne,
    DB.load_of_loadTarget ho hover ⟨c,hc',hcurrent'.trans hcurrent⟩ (htarget.trans hl) hne,hv⟩

/-- An open database without stores at version 3, with snapshots of versions 0, 1 and 2, as its
pruning starts. -/
def pruningSample : System where
  disk := {
    snapshots := [0,1,2].map fun v => (v,⟨[],⟨⟨v,[]⟩,0⟩⟩)
    current := some 2
    wal := ⟨0,[{},{},{}]⟩ }
  db := some { opts := {}, mtree := newEmpty 0 }
  pruner := some { keepRecent := 1 }

theorem intact_pruningSample : pruningSample.disk.Intact 0 where
  sorted := by decide
  parsed := by decide
  snapshot := by
    intro v hv
    have hv : v = 0 ∨ v = 1 ∨ v = 2 := by simpa [pruningSample,Disk.versions] using hv
    rcases hv with rfl | rfl | rfl
    all_goals exact ⟨_,rfl,rfl,rfl,⟨.inr (Nat.zero_le _),le_rfl⟩,_,rfl⟩
  covered := by decide
  small := by decide

/-- With one snapshot kept, those of versions 1 and 2 are left, and version 3 can be loaded. -/
theorem prune_keeps_versions_sample : ∃ s' : System,
    Run System.step (fun _ a => a = .prune) pruningSample s' ∧
      s'.disk.versions = [1,2] ∧ ∃ (db : DB) (d : Disk),
        DB.load { targetVersion := 3 } s'.disk = (.ok db,d) ∧ db.mtree.version = 3 := by
  have hex : (exec System.step (fun _ a => a = .prune) [.prune,.prune,.prune]
      pruningSample).any (fun s' => s'.pruner = none) = true := by
    decide +kernel
  obtain ⟨s',hrun,hend⟩ := Run.exists_of_exec hex
  obtain ⟨hversions,hload⟩ := prune_keeps_versions (c := 2) intact_pruningSample rfl (by decide)
    (by decide) (by rintro db ⟨⟩; rfl) rfl hrun (of_decide_eq_true hend)
  have hversions : s'.disk.versions = [1,2] := hversions.trans (by decide)
  obtain ⟨db,-,d,-,hl,hv⟩ := hload { targetVersion := 3 } rfl rfl
    ⟨by decide,.inr ⟨3,by decide,by decide⟩⟩ ⟨1,by simp [hversions],by decide⟩
  exact ⟨s',hrun,hversions,db,d,hl,hv⟩

end System

end Memiavl
