import Memiavl.Pending
import Memiavl.Prune

/-! The history of a database: the trees it started with and the entries committed since then.
Every version is the result of a replay; the snapshots and the log of a directory hold it in
pieces, and a load puts them together again. -/
namespace Memiavl

open MultiTree List

namespace MultiTree

variable {t : MultiTree}

/-- The trees can be written to a snapshot: they keep to the limits of its format, and their names
are names of directories. -/
def Fits (t : MultiTree) : Prop :=
  t.version ≤ maxUint32 ∧ t.PlainNames ∧ ∀ e ∈ t.trees, e.tree.Storable

instance (t : MultiTree) : Decidable t.Fits := by
  unfold Fits
  infer_instance

theorem loadTrees_writeTree {trees : List NamedTree} (havl : ∀ e ∈ trees, e.tree.Avl)
    (hs : ∀ e ∈ trees, e.tree.Storable) :
    loadTrees (trees.map fun e => (e.name,e.tree.writeTree)) = .ok trees := by
  induction trees with
  | nil => rfl
  | cons e es ih =>
    have htree := StoreTree.load_writeTree (havl e mem_cons_self) (hs e mem_cons_self)
    have htrees := ih (fun e' he' => havl e' (mem_cons_of_mem _ he'))
      fun e' he' => hs e' (mem_cons_of_mem _ he')
    simp only [map_cons,loadTrees,htree,htrees,bind,Except.bind,pure,Except.pure]

theorem names_loadTrees {fs : List (Bytes × TreeFiles)} {trees : List NamedTree}
    (h : loadTrees fs = .ok trees) : trees.map NamedTree.name = fs.map Prod.fst := by
  induction fs generalizing trees with
  | nil =>
    cases h
    rfl
  | cons f fs ih =>
    rw [loadTrees] at h
    cases ht : StoreTree.load f.2 with
    | error e =>
      rw [ht] at h
      cases h
    | ok tree =>
      cases hts : loadTrees fs with
      | error e =>
        rw [ht,hts] at h
        cases h
      | ok trees₁ =>
        rw [ht,hts] at h
        cases h
        rw [map_cons,map_cons,ih hts]

/-- A tree that is read has a directory, and the other way round. -/
theorem mem_names_load {d : SnapshotDir} (h : MultiTree.load d = .ok t)
    {f : Bytes × TreeFiles} (hf : f ∈ d.trees) : f.1 ∈ t.names := by
  unfold MultiTree.load at h
  cases hm : readMetadata d with
  | error e =>
    rw [hm] at h
    cases h
  | ok m =>
    cases hts : loadTrees (d.trees.insertionSort fun a b => a.1 ≤ b.1) with
    | error e =>
      rw [hm,hts] at h
      cases h
    | ok trees =>
      rw [hm,hts] at h
      cases h
      have hnames := names_loadTrees hts
      have hmem : f.1 ∈ trees.map NamedTree.name := by
        rw [hnames]
        exact List.mem_map_of_mem ((mem_insertionSort _).mpr hf)
      unfold names putInitialVersion
      simp only
      split
      · rwa [List.map_map,show NamedTree.name ∘ (fun e : NamedTree => { e with
          tree := e.tree.setInitialVersion (UInt32.ofNat m.initialVersion) }) = NamedTree.name from rfl]
      · exact hmem

theorem putInitialVersion_of_saved (ht : t.Saved) (iv : UInt32) :
    t.putInitialVersion iv = { t with initialVersion := iv } := by
  have hmap : (t.trees.map fun e => { e with tree := e.tree.setInitialVersion iv }) = t.trees := by
    rw [map_congr_left (g := id),List.map_id]
    intro e he
    rw [StoreTree.setInitialVersion_of_pos (ht e he)]
    rfl
  rw [putInitialVersion,hmap,ite_self]

/-- What is written to a directory that holds no other trees is read again. -/
theorem load_writeSnapshot (hp : t.Proper) (hs : t.Saved) (hfits : t.Fits)
    {old : List (Bytes × TreeFiles)} (hold : ∀ f ∈ old, f.1 ∈ t.names) :
    MultiTree.load (t.writeSnapshot old) =
      .ok { t with metadata := ⟨t.lastCommitInfo,t.initialVersion.toNat⟩ } := by
  have hnone : old.filter (fun f => ∀ e ∈ t.trees, e.name ≠ f.1) = [] := by
    rw [filter_eq_nil_iff]
    intro f hf
    obtain ⟨e,he,hname⟩ := List.mem_map.mp (hold f hf)
    simp only [decide_eq_true_eq]
    exact fun hall => hall e he hname
  have hsorted : (t.trees.map fun e => (e.name,e.tree.writeTree)).insertionSort
      (fun a b => a.1 ≤ b.1) = t.trees.map fun e => (e.name,e.tree.writeTree) := by
    refine KeyedList.Strict.insertionSort_eq ?_
    rw [KeyedList.Strict,List.map_map]
    exact hp.indexed.strict
  have hmeta : readMetadata (t.writeSnapshot old) =
      .ok ⟨t.lastCommitInfo,t.initialVersion.toNat⟩ := by
    have hiv := t.initialVersion.toNat_lt
    have hv : t.lastCommitInfo.version ≤ maxUint32 := hfits.1
    rw [readMetadata,writeSnapshot,if_neg (not_lt.mpr hv),if_neg]
    simp only [maxUint32]
    omega
  have htrees : loadTrees ((t.writeSnapshot old).trees.insertionSort fun a b => a.1 ≤ b.1) =
      .ok t.trees := by
    rw [writeSnapshot,hnone,List.append_nil,hsorted,loadTrees_writeTree hp.avl hfits.2.2]
  simp only [MultiTree.load,hmeta,htrees,bind,Except.bind,pure,Except.pure]
  rw [putInitialVersion_of_saved (t := ⟨0,t.trees,_,_,_⟩) hs,UInt32.ofNat_toNat,← hp.indexed.index]

end MultiTree

/-- What commits led to. -/
structure History where
  /-- The trees before the first entry. -/
  start : MultiTree
  entries : List WALEntry := []

namespace History

/-- The trees after `k` entries. -/
def At (h : History) (k : ℕ) (t : MultiTree) : Prop :=
  k ≤ h.entries.length ∧ h.start.replayAll (h.entries.take k) = .ok t

/-- A history starts with an empty database or an imported state, and its entries can be
replayed. -/
structure Valid (h : History) : Prop where
  bare : h.start.bare = h.start
  sane : h.start.Sane
  position : h.start.position = 0
  proper : h.start.Proper
  saved : h.start.Saved
  empty : h.start.version = 0 → h.start.trees = []
  replays : ∃ t, h.start.replayAll h.entries = .ok t

variable {h : History} {k m : ℕ} {t t' : MultiTree}

theorem At.unique (ht : h.At k t) (ht' : h.At k t') : t = t' :=
  Except.ok.inj (ht.2.symm.trans ht'.2)

theorem Valid.exists_at (hv : h.Valid) (hk : k ≤ h.entries.length) : ∃ t, h.At k t := by
  obtain ⟨t,ht⟩ := hv.replays
  rw [← take_append_drop k h.entries,replayAll_append] at ht
  cases hr : h.start.replayAll (h.entries.take k) with
  | error e =>
    rw [hr] at ht
    cases ht
  | ok t₁ => exact ⟨t₁,hk,hr⟩

theorem At.replay (ht : h.At k t) (ht' : h.At m t') (hkm : k ≤ m) :
    t.replayAll ((h.entries.drop k).take (m-k)) = .ok t' := by
  have hsplit : h.entries.take m = h.entries.take k ++ (h.entries.drop k).take (m-k) := by
    rw [← take_add,Nat.add_sub_cancel' hkm]
  have hm := ht'.2
  rw [hsplit,replayAll_append,ht.2] at hm
  exact hm

theorem At.succ {e : WALEntry} (ht : h.At k t) (he : h.entries[k]? = some e) :
    h.At (k+1) t' ↔ t.replay e = .ok t' := by
  obtain ⟨hlt,rfl⟩ := List.getElem?_eq_some_iff.mp he
  rw [At,take_succ_eq_append_getElem hlt,replayAll_append,ht.2]
  simp only [Except.bind,replayAll,Nat.succ_le_iff.mpr hlt,true_and]
  cases t.replay h.entries[k] with
  | error err => simp
  | ok t₁ => simp

/-- What holds of every version. -/
structure Version (h : History) (k : ℕ) (t : MultiTree) : Prop where
  bare : t.bare = t
  sane : t.Sane
  position : t.position = k
  initialVersion : t.initialVersion = h.start.initialVersion
  proper : t.Proper
  saved : t.Saved

theorem Version.next {e : WALEntry} (ht : h.Version k t) (hr : t.replay e = .ok t') :
    h.Version (k+1) t' := by
  have ha := advances_replay hr
  obtain ⟨hp,hs⟩ := ht.proper.replay hr
  refine ⟨?_,ha.sane ht.sane,?_,ha.initialVersion.trans ht.initialVersion,hp,hs⟩
  · have hbare := bare_replay t e
    rw [ht.bare,hr] at hbare
    exact (Except.ok.inj hbare).symm
  · rw [ha.position_eq ht.sane,ht.position]

theorem Valid.version (hv : h.Valid) (ht : h.At k t) : h.Version k t := by
  induction k generalizing t with
  | zero =>
    obtain rfl : h.start = t := Except.ok.inj ht.2
    exact ⟨hv.bare,hv.sane,hv.position,rfl,hv.proper,hv.saved⟩
  | succ k ih =>
    obtain ⟨t₀,ht₀⟩ := hv.exists_at (Nat.le_of_succ_le ht.1)
    exact (ih ht₀).next ((ht₀.succ (getElem?_eq_getElem ht.1)).mp ht)

/-- The version after `k` entries, as a user sees it. -/
structure Shows (h : History) (k : ℕ) (t : MultiTree) : Prop where
  state : h.At k t.bare
  info : t.lastCommitInfo = t.buildCommitInfo t.version
  snapshot : t.snapshotVersion ≤ t.version

section
variable (hv : h.Valid) (ht : h.Shows k t)
include hv ht

theorem Shows.version : h.Version k t.bare := hv.version ht.state

theorem Shows.sane : t.Sane :=
  ⟨(ht.version hv).sane.committable,ht.snapshot⟩

theorem Shows.position : t.position = k :=
  (ht.version hv).position

theorem Shows.initialVersion : t.initialVersion = h.start.initialVersion := (ht.version hv).initialVersion

theorem Shows.version_ne_zero (hk : 0 < k) : t.version ≠ 0 := by
  intro h0
  have hposition := ht.position hv
  rw [MultiTree.position,entriesAt,if_pos h0] at hposition
  omega

end

theorem Shows.view_eq (ht : h.Shows k t) (ht' : h.Shows k t') : t.view = t'.view := by
  have hbare := ht.state.unique ht'.state
  obtain ⟨-,htrees,-,hversion⟩ := bare_eq_iff.mp hbare
  rw [view,view,htrees,ht.info,ht'.info,buildCommitInfo_congr hbare,hversion]

/-- A log that holds the entries up to its last index, perhaps without some at the front. -/
def Logs (h : History) (wal : IndexedLog WALEntry) : Prop :=
  wal.TruncationOf ⟨0,h.entries.take wal.lastIndex⟩

variable {wal : IndexedLog WALEntry}

theorem Logs.le (hl : h.Logs wal) : wal.lastIndex ≤ h.entries.length := by
  have := IndexedLog.TruncationOf.lastIndex_eq hl
  simp only [IndexedLog.lastIndex,length_take] at this ⊢
  omega

theorem Logs.entries_eq (hl : h.Logs wal) (hk : wal.base ≤ k) (hm : m ≤ wal.lastIndex) :
    (wal.entries.drop (k-wal.base)).take (m-k) = (h.entries.drop k).take (m-k) := by
  obtain ⟨j,-,hwal⟩ := hl
  have hbase : wal.base = j := (congrArg IndexedLog.base hwal).trans (Nat.zero_add j)
  have hentries : wal.entries = (h.entries.take wal.lastIndex).drop j :=
    congrArg IndexedLog.entries hwal
  rw [hentries,drop_drop,hbase,Nat.add_sub_cancel' (hbase ▸ hk),drop_take,take_take,
    min_eq_left (by omega)]

theorem Shows.replayFrom (hv : h.Valid) (ht : h.Shows k t) (hl : h.Logs wal) (hk : wal.base ≤ k)
    (hkm : k ≤ m) (hm : m ≤ wal.lastIndex) :
    ∃ t₁, replayFrom wal t (k+1) (m-k) = .ok t₁ ∧ h.Shows m t₁.updateCommitInfo := by
  obtain ⟨st,hst⟩ := hv.exists_at (hm.trans hl.le)
  have hr := ht.state.replay hst hkm
  rw [bare_replayAll,← hl.entries_eq hk hm] at hr
  have hfrom : MultiTree.replayFrom wal t (k+1) (m-k) =
      t.replayAll ((wal.entries.drop (k-wal.base)).take (m-k)) := by
    rw [replayFrom_eq_replayAll (by omega) (by omega),show k+1-wal.base-1 = k-wal.base by omega]
  rw [hfrom]
  cases hall : t.replayAll ((wal.entries.drop (k-wal.base)).take (m-k)) with
  | error e =>
    rw [hall] at hr
    cases hr
  | ok t₁ =>
    rw [hall] at hr
    obtain rfl : t₁.bare = st := Except.ok.inj hr
    have hc := caughtUp_replayAll (ht.sane hv) hall
    exact ⟨t₁,rfl,hst,rfl,hc.sane.snapshot⟩

theorem Shows.catchupWAL (hv : h.Valid) (ht : h.Shows k t) (hl : h.Logs wal) (hk : wal.base ≤ k)
    (endVersion : ℕ) (hend : k < wal.lastIndex → k < t.endIndex wal endVersion) :
    ∃ t', t.catchupWAL wal endVersion = .ok t' ∧
      h.Shows (max k (min (t.endIndex wal endVersion) wal.lastIndex)) t' := by
  have hpos := ht.position hv
  by_cases hlast : wal.lastIndex ≤ k
  · refine ⟨t,(catchupWAL_eq_ok (ht.sane hv)).mpr (.inl ⟨by omega,rfl⟩),?_⟩
    rwa [max_eq_left (by omega)]
  · have hlt := hend (by omega)
    obtain ⟨t₁,hr,hs⟩ := ht.replayFrom (m := min (t.endIndex wal endVersion) wal.lastIndex)
      hv hl hk (by omega) (by omega)
    refine ⟨t₁.updateCommitInfo,(catchupWAL_eq_ok (ht.sane hv)).mpr
      (.inr ⟨by omega,by omega,t₁,by rw [hpos]; exact hr,rfl⟩),?_⟩
    rwa [max_eq_right (by omega)]

/-- Catch-up with the whole log. -/
theorem Shows.catchupWAL_zero (hv : h.Valid) (ht : h.Shows k t) (hl : h.Logs wal)
    (hk : wal.base ≤ k) :
    ∃ t', t.catchupWAL wal 0 = .ok t' ∧ h.Shows (max k wal.lastIndex) t' := by
  have hend : t.endIndex wal 0 = wal.lastIndex := if_pos rfl
  simpa [hend] using ht.catchupWAL hv hl hk 0 (by simp [hend])

/-- A snapshot directory with a version of the history. -/
def Stores (h : History) (p : ℕ × SnapshotDir) : Prop :=
  ∃ k t, MultiTree.load p.2 = .ok t ∧ t.version = p.1 ∧ h.Shows k t

theorem Stores.load (hv : h.Valid) {p : ℕ × SnapshotDir} (hs : h.Stores p) :
    ∃ t, MultiTree.load p.2 = .ok t ∧ t.version = p.1 ∧
      h.Shows (entriesAt p.1 h.start.initialVersion) t := by
  obtain ⟨k,t,hl,hversion,ht⟩ := hs
  refine ⟨t,hl,hversion,?_⟩
  rwa [← hversion,← ht.initialVersion hv,← MultiTree.position,ht.position hv]

theorem Shows.stores (hv : h.Valid) (ht : h.Shows k t) (hfits : t.Fits)
    {old : List (Bytes × TreeFiles)} (hold : ∀ f ∈ old, f.1 ∈ t.names) :
    h.Stores (t.version,t.writeSnapshot old) := by
  have hver := ht.version hv
  have hproper : t.Proper := hver.proper.congr rfl
  exact ⟨k,_,load_writeSnapshot hproper hver.saved hfits hold,rfl,⟨ht.state,ht.info,le_refl _⟩⟩

end History

namespace Disk

/-- A directory with the versions of a history, apart from some directories that are left over
from another one. -/
structure Keeps (d : Disk) (h : History) (leftover : List (ℕ × SnapshotDir)) : Prop where
  stored : ∀ p ∈ d.snapshots, h.Stores p ∨ p ∈ leftover
  sorted : d.versions.Pairwise (· < ·)
  current : ∃ p ∈ d.snapshots, d.current = some p.1 ∧ h.Stores p
  logged : h.Logs d.wal
  covered : ∀ v ∈ d.versions, d.wal.base ≤ entriesAt v h.start.initialVersion

variable {d : Disk} {h : History} {leftover : List (ℕ × SnapshotDir)} {T : ℕ}

theorem lookup_of_mem {dirs : List (ℕ × SnapshotDir)}
    (hsorted : (dirs.map Prod.fst).Pairwise (· < ·)) {p : ℕ × SnapshotDir} (hp : p ∈ dirs) :
    dirs.lookup p.1 = some p.2 := by
  induction dirs with
  | nil => cases hp
  | cons q dirs ih =>
    obtain ⟨hq,hsorted⟩ := pairwise_cons.mp hsorted
    rw [lookup_cons]
    rcases mem_cons.mp hp with rfl | hp
    · simp
    · have hlt := hq p.1 (List.mem_map_of_mem hp)
      rw [beq_false_of_ne (by omega)]
      exact ih hsorted hp

namespace Keeps

theorem loadMultiTree (hd : d.Keeps h leftover) (hv : h.Valid) {p : ℕ × SnapshotDir}
    (hp : p ∈ d.snapshots) (hs : h.Stores p) : ∃ t, d.loadMultiTree p.1 = .ok t ∧
      t.version = p.1 ∧ h.Shows (entriesAt p.1 h.start.initialVersion) t := by
  obtain ⟨t,hl,hversion,ht⟩ := hs.load hv
  refine ⟨t,?_,hversion,ht⟩
  rw [Disk.loadMultiTree,lookup_of_mem hd.sorted hp]
  exact hl

/-- `Load` of the latest version. -/
theorem loadTarget_zero (hd : d.Keeps h leftover) (hv : h.Valid) :
    ∃ c t, d.current = some c ∧ d.loadTarget 0 = .ok (c,t) ∧
      h.Shows (max (entriesAt c h.start.initialVersion) d.wal.lastIndex) t := by
  obtain ⟨p,hp,hcurrent,hs⟩ := hd.current
  obtain ⟨t,hl,-,ht⟩ := hd.loadMultiTree hv hp hs
  obtain ⟨t',hc,ht'⟩ := ht.catchupWAL_zero hv hd.logged (hd.covered p.1 (List.mem_map_of_mem hp))
  refine ⟨p.1,t',hcurrent,loadTarget_eq_ok.mpr ⟨t,by simp [startSnapshot,hcurrent],hl,?_⟩,ht'⟩
  rw [if_pos (.inl rfl),hc]

/-- `Load` of a version: the largest snapshot that is not above it, and the entries up to it. -/
theorem loadTarget (hd : d.Keeps h []) (hv : h.Valid) (hT : 0 < T)
    (hparsed : ∀ v ∈ d.versions, v < 2^31) (hge : ∃ v ∈ d.versions, v ≤ T)
    (hiv : h.start.initialVersion.toNat ≤ T ∨ T ∈ d.versions) :
    ∃ v t, d.loadTarget T = .ok (v,t) ∧ v ∈ d.versions ∧ v ≤ T ∧
      h.Shows (max (entriesAt v h.start.initialVersion)
        (min (walIndex T h.start.initialVersion) d.wal.lastIndex)) t := by
  obtain ⟨v,hmem,hvT,hmax⟩ := exists_largest hge
  obtain ⟨p,hp,rfl⟩ := List.mem_map.mp hmem
  have hs : h.Stores p := (hd.stored p hp).resolve_right (by simp)
  obtain ⟨t,hl,hversion,ht⟩ := hd.loadMultiTree hv hp hs
  have hstart : d.startSnapshot T = .ok p.1 := (startSnapshot_eq_ok hT).mpr
    ((seekSnapshot_eq_ok hd.sorted hparsed).mpr ⟨hmem,hvT,hmax⟩)
  by_cases hlt : p.1 < T
  · have hTmem : h.start.initialVersion.toNat ≤ T := hiv.resolve_right fun hmem => by
      have := hmax T hmem le_rfl
      omega
    have hend : t.endIndex d.wal T = walIndex T h.start.initialVersion := by
      rw [endIndex,if_neg (by omega),ht.initialVersion hv]
    have hcom := (ht.sane hv).committable
    rw [hversion,ht.initialVersion hv] at hcom
    have hbefore : entriesAt p.1 h.start.initialVersion < walIndex T h.start.initialVersion := by
      unfold Committable at hcom
      unfold entriesAt walIndex
      split_ifs <;> omega
    obtain ⟨t',hc,ht'⟩ := ht.catchupWAL hv hd.logged (hd.covered p.1 hmem) T fun _ => by
      rw [hend]
      exact hbefore
    rw [hend] at ht'
    refine ⟨p.1,t',loadTarget_eq_ok.mpr ⟨t,hstart,hl,?_⟩,hmem,hvT,ht'⟩
    rw [if_pos (.inr (by omega)),hc]
  · obtain rfl : p.1 = T := by omega
    refine ⟨p.1,t,loadTarget_eq_ok.mpr ⟨t,hstart,hl,?_⟩,hmem,hvT,?_⟩
    · rw [if_neg (by omega)]
    · rwa [walIndex_of_pos hT,max_eq_left (by omega)]

end Keeps

end Disk

end Memiavl
