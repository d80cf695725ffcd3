import Memiavl.DbInvariant
import Memiavl.ImportTree

/-! The places of commits in the log: from an empty database, and from an imported state. -/
namespace Memiavl

open MultiTree

/-- The versions of the commits on the way from `t₀` to `t`, with changes of the trees between
them. -/
inductive Commits (t₀ : MultiTree) : List ℕ → MultiTree → Prop
  | start : Commits t₀ [] t₀
  | upgraded {vs : List ℕ} {t : MultiTree} (us : List TreeNameUpgrade) :
      Commits t₀ vs t → Commits t₀ vs (t.applyUpgrades us).1
  | changed {vs : List ℕ} {t : MultiTree} (css : List NamedChangeSet) :
      Commits t₀ vs t → Commits t₀ vs (t.applyChangeSets css).1
  | committed {vs : List ℕ} {t t' : MultiTree} {v : ℕ} (update : Bool) :
      Commits t₀ vs t → t.saveVersion update = (t',.ok v) → Commits t₀ (vs ++ [v]) t'

variable {t₀ t : MultiTree} {vs : List ℕ}

/-- The trees are as many entries of the log behind the start as there were commits. -/
structure Commits.Counted (t₀ : MultiTree) (vs : List ℕ) (t : MultiTree) : Prop where
  sane : t.Sane
  initialVersion : t.initialVersion = t₀.initialVersion
  position : t.position = vs.length
  version (i v : ℕ) : vs[i]? = some v →
    v ≠ 0 ∧ Committable v t₀.initialVersion ∧ entriesAt v t₀.initialVersion = i+1

theorem Commits.Counted.same {t' : MultiTree} (h : Counted t₀ vs t) (hs : SameVersion t t') :
    Counted t₀ vs t' :=
  ⟨hs.sane h.sane,hs.initialVersion.trans h.initialVersion,hs.position_eq.trans h.position,
    h.version⟩

theorem Commits.counted (h₀ : t₀.Sane) (hpos : t₀.position = 0) (h : Commits t₀ vs t) :
    Counted t₀ vs t := by
  induction h with
  | start => exact ⟨h₀,rfl,hpos,by simp⟩
  | upgraded us _ ih => exact ih.same (sameVersion_applyUpgrades _ us)
  | changed css _ ih => exact ih.same (sameVersion_applyChangeSets _ css)
  | @committed vs t t' v update _ hsave ih =>
    have ha : Advances t t' := by
      have := advances_saveVersion t update
      rwa [hsave] at this
    have hv := saveVersion_ok_version hsave
    have hiv := ha.initialVersion.trans ih.initialVersion
    have hpos : t'.position = vs.length+1 := by rw [ha.position_eq ih.sane,ih.position]
    refine ⟨ha.sane ih.sane,hiv,by simpa using hpos,fun i w hw => ?_⟩
    rw [List.getElem?_append] at hw
    split at hw
    · exact ih.version i w hw
    · obtain ⟨hi,rfl⟩ : i-vs.length = 0 ∧ v = w := by simpa [List.getElem?_singleton] using hw
      have hlt := lt_nextVersion t.version t.initialVersion
      rw [← ha.version,hv] at hlt
      rw [position,hv,hiv] at hpos
      refine ⟨by omega,?_,by omega⟩
      rw [← hv,← hiv]
      exact (ha.sane ih.sane).committable

theorem MultiTreeImporter.height_closeImporter {m m' : MultiTreeImporter}
    (h : m.closeImporter = .ok m') : m'.height = m.height := by
  unfold closeImporter at h
  split at h
  · cases h
    rfl
  · obtain ⟨files,-,h⟩ := Outcome.bind_eq_ok h
    cases h
    rfl

theorem MultiTreeImporter.height_restoreLoop {m m' : MultiTreeImporter} {items : List SnapshotItem}
    {item : Option SnapshotItem} (h : m.restoreLoop items = .ok (item,m')) :
    m'.height = m.height := by
  induction items generalizing m with
  | nil =>
    cases h
    rfl
  | cons x items ih =>
    cases x with
    | store name =>
      obtain ⟨m₁,hadd,h⟩ := Outcome.bind_eq_ok h
      obtain ⟨m₂,hclose,hm₂⟩ := Outcome.bind_eq_ok hadd
      cases hm₂
      have hm := ih h
      have hc := height_closeImporter hclose
      exact hm.trans hc
    | iavl key value version height =>
      rw [restoreLoop] at h
      split at h
      · unfold fail at h
        split at h <;> cases h
      · obtain ⟨m₁,hadd,h⟩ := Outcome.bind_eq_ok h
        unfold addNode at hadd
        split at hadd <;> cases hadd
        have hm := ih h
        exact hm
    | extension =>
      cases h
      rfl
    | invalid err =>
      rw [restoreLoop,fail] at h
      split at h <;> cases h

/-- The metadata of an imported state. -/
theorem Disk.metadata_restore {d d' : Disk} {height : ℕ} {items : List SnapshotItem}
    {item : Option SnapshotItem} (h : d.restore height items = .ok (item,d')) :
    ∃ dir, d'.loadCurrent = MultiTree.load dir ∧ dir.metadata.commitInfo.version = height ∧
      dir.metadata.initialVersion = height+1 := by
  rw [restore] at h
  split at h
  · cases h
  obtain ⟨⟨x,m⟩,hloop,h⟩ := Outcome.bind_eq_ok h
  obtain ⟨d₁,hfinal,h⟩ := Outcome.bind_eq_ok h
  cases h
  obtain ⟨m₁,hclose,hfinal⟩ := Outcome.bind_eq_ok hfinal
  have hheight : m₁.height = height :=
    (MultiTreeImporter.height_closeImporter hclose).trans
      (MultiTreeImporter.height_restoreLoop hloop)
  split at hfinal
  · cases hfinal
  obtain ⟨dir,hdir,hfinal⟩ := Outcome.bind_eq_ok hfinal
  obtain ⟨infos,-,hdir⟩ := Outcome.bind_eq_ok hdir
  have hmeta : dir.metadata = ⟨⟨m₁.height,infos⟩,m₁.height+1⟩ := by
    cases hdir
    rfl
  rw [promote_eq,install] at hfinal
  split at hfinal
  · cases hfinal
  split at hfinal
  · cases hfinal
  cases hfinal
  refine ⟨dir,?_,by rw [hmeta,hheight],by rw [hmeta,hheight]⟩
  simp only [loadCurrent,loadMultiTree,lookup_putDir]

/-- The `i`-th commit, from an empty database or behind an import, has index `i` in the log; no
subtraction is below zero, and the index gives the version back. -/
theorem walIndex_commit (h : Commits t₀ vs t)
    (h₀ : (∃ iv, t₀ = newEmpty iv) ∨ ∃ d d' height items item,
      Disk.restore d height items = .ok (item,d') ∧ d'.loadCurrent = .ok t₀)
    {i v : ℕ} (hv : vs[i]? = some v) :
    walIndex v t₀.initialVersion = i+1 ∧
      (1 < t₀.initialVersion.toNat → t₀.initialVersion.toNat ≤ v) ∧
      walVersion (walIndex v t₀.initialVersion) t₀.initialVersion = v := by
  have hstart : t₀.Sane ∧ t₀.position = 0 := by
    rcases h₀ with ⟨iv,rfl⟩ | ⟨d,d',height,items,item,hrestore,hload⟩
    · exact ⟨sane_newEmpty iv,rfl⟩
    · obtain ⟨dir,heq,hversion,hiv⟩ := Disk.metadata_restore hrestore
      rw [heq] at hload
      obtain ⟨hinfo,hmeta,htoNat⟩ := load_eq_ok hload
      rw [hiv] at htoNat
      have hv : t₀.version = height := by rw [version,hinfo,hversion]
      refine ⟨⟨.inr (by omega),by rw [snapshotVersion,hmeta,version,hinfo]⟩,?_⟩
      unfold position entriesAt walIndex
      split_ifs <;> omega
  obtain ⟨hne,hcommittable,hentries⟩ := (h.counted hstart.1 hstart.2).version i v hv
  have hindex : walIndex v t₀.initialVersion = i+1 := by
    rw [walIndex_of_pos (by omega),hentries]
  refine ⟨hindex,?_,(walVersion_eq_iff hcommittable (by omega) (by omega)).mpr rfl⟩
  intro hlarge
  unfold walIndex at hindex
  unfold Committable at hcommittable
  split_ifs at hindex <;> omega

theorem walIndex_commit_eleven :
    Commits (newEmpty 10) [10,11] (((newEmpty 10).saveVersion true).1.saveVersion false).1 ∧
      walIndex 11 10 = 2 ∧ walVersion 2 10 = 11 :=
  have h := .committed false (.committed true .start rfl) rfl
  have hindex := walIndex_commit h (.inl ⟨10,rfl⟩) (i := 1) rfl
  ⟨h,hindex.1,hindex.2.2⟩

end Memiavl
