import Memiavl.Progress

/-! A database that is opened at its latest version stays at the latest version. -/
namespace Memiavl

namespace System

variable {s s' : System} {h h' : History} {leftover : List (ℕ × SnapshotDir)} {db db' : DB}

/-- The open database is at the last version of the history. -/
def Latest (s : System) (h : History) : Prop := ∀ db ∈ s.db, db.mtree.position = h.entries.length

/-- Regular actions that open only the latest version. -/
def Onward (s : System) : Act → Prop
  | .load o => o.targetVersion = 0
  | a => System.Regular [] s a

instance (s : System) (a : Act) : Decidable (s.Onward a) := by
  induction a using Act.casesOn <;> dsimp only [Onward] <;> infer_instance

theorem Onward.regular {a : Act} (ha : s.Onward a) (leftover : List (ℕ × SnapshotDir)) :
    System.Regular leftover s a := by
  cases a with
  | load o => exact .inl ha
  | call | proceed | write | rewrite | prune | crash | interrupt => exact ha

theorem Faithful.position_le (hs : s.Faithful h leftover) (hdb : s.db = some db) :
    db.mtree.position ≤ h.entries.length := by
  obtain ⟨st,hat,-⟩ := (hs.db db hdb).state
  exact hat.1

theorem Latest.of_continues (hl : s.Latest h) (hc : Continues s s') (hs : s'.Faithful h' leftover)
    (hlength : h'.entries.length = h.entries.length) : s'.Latest h' := by
  intro db' hdb'
  obtain ⟨db,hdb,-,hle⟩ := hc db' hdb'
  refine le_antisymm (hs.position_le hdb') ?_
  rw [hlength,← hl db hdb]
  exact hle

theorem latest_loaded (hs : s.Faithful h leftover) (hnone : s.db = none) {o : Options} {d : Disk}
    (hT : o.targetVersion = 0) (hload : DB.load o s.disk = (.ok db,d)) :
    db.mtree.position = h.entries.length := by
  obtain ⟨d₁,v,mtree,hprep,hl,-,hopen⟩ := load_eq_ok hload
  rw [hs.disk.prepare_eq (DB.validate_of_prepare hprep)] at hprep
  obtain rfl := (Prod.mk.inj hprep).1
  obtain ⟨c,t,hc,hzero,hshows⟩ := (hs.disk.prepared o.readOnly).loadTarget_zero hs.valid
  rw [hT] at hl
  cases hl.symm.trans hzero
  have hwal : (if o.readOnly then s.disk else s.disk.removeTmpDirs).wal = s.disk.wal := by
    split <;> rfl
  have hle := (hs.disk.prepared o.readOnly).current_le hs.valid hc
  rw [hwal,lastIndex_of_closed hs hnone,max_eq_right hle] at hshows
  rw [(touches_openWith hopen).1.mtree.position_eq]
  exact hshows.position hs.valid

/-- The current snapshot is not newer than the latest version. -/
theorem Latest.current_le (hs : s.Faithful h leftover) (hl : s.Latest h) (hdb : s.db = some db)
    {c : ℕ} (hc : c ∈ s.disk.current) : c ≤ db.mtree.version := by
  have ht := hs.db db hdb
  obtain ⟨st,hat,hinfo,-⟩ := ht.state
  rw [hl db hdb] at hat
  have hversion : db.mtree.version = st.version := (congrArg CommitInfo.version hinfo :)
  by_cases h0 : st.version = 0
  · have hnil := ht.first (hversion.trans h0)
    have hst : h.start = st := by
      have hr := hat.2
      rw [hnil,List.take_nil] at hr
      exact Except.ok.inj hr
    obtain ⟨p,-,hcurrent,hstores⟩ := hs.disk.current
    rw [hcurrent] at hc
    cases hc
    obtain ⟨t,-,ht,hshows⟩ := hstores.load hs.valid
    rw [← ht,hshows.version_eq hnil,hst,hversion]
  · rw [hversion]
    exact hs.disk.current_le_version hs.valid hat h0 hc

theorem Latest.step (hok : s.Ok) (hs : s.Faithful h leftover) (hl : s.Latest h) {a : Act}
    (ha : s.Onward a) (hstep : s.step a = some s') :
    ∃ h', s.GoesTo h leftover h' s' ∧ s'.Latest h' := by
  have hr := ha.regular leftover
  cases turns_of_step hstep with
  | loaded hnone hp hload =>
    refine ⟨h,goes_loaded hs hnone hp hr hload,?_⟩
    rintro x ⟨⟩
    exact latest_loaded hs hnone ha hload
  | notLoaded hnone hp hload =>
    refine ⟨h,goes_notLoaded hs hnone hp hr hload,?_⟩
    intro x hx
    rw [hnone] at hx
    cases hx
  | @starts c db _ hdb hidle hstart =>
    by_cases hc : c = .commit
    · subst hc
      obtain ⟨h',db',-,-,hg,hdb',-,-,-,-,hlatest⟩ := goes_commit hok hs hdb hidle (hr db hdb) hstart
      refine ⟨h',hg,?_⟩
      rw [Latest,hdb']
      rintro x ⟨⟩
      exact hlatest (hl db hdb)
    · obtain ⟨h',hg,hlength⟩ := goes_starts hok hs hdb hidle (hr db hdb) hstart
      exact ⟨h',hg,hl.of_continues (effect_step hok (by trivial) hstep).2 hg.faithful (hlength hc)⟩
  | proceeds | writes | rewrites | prunes =>
    have hg := goes_internal hok hs (by trivial) hr hstep
    exact ⟨h,hg,hl.of_continues (effect_step hok (by trivial) hstep).2 hg.faithful rfl⟩
  | crashed | interrupted => exact hr.elim

end System

end Memiavl
