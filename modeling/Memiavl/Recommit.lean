import Memiavl.Reload
import Memiavl.Progress

/-! A database that is opened at an older version and commits the same changes again. -/
namespace Memiavl

open Transition

namespace System

variable {s s' : System} {h : History} {leftover : List (ℕ × SnapshotDir)} {db db' : DB}

/-- The log has got some more entries at its end. -/
def Lengthens (s s' : System) : Prop := ∃ xs, s'.disk.wal = s.disk.wal.append xs

theorem Lengthens.of_eq (hwal : s'.disk.wal = s.disk.wal) : Lengthens s s' := ⟨[],by simp [hwal]⟩

theorem lengthens_finishCommit {s₁ : System} (hwal : s₁.disk.wal = s.disk.wal) (v : ℕ)
    (err : Option String) : Lengthens s (s₁.finishCommit db v err) := by
  refine .of_eq ?_
  rw [← hwal]
  have hf := finishes_finishCommit s₁ db v err
  generalize s₁.finishCommit db v err = s' at hf ⊢
  cases hf <;> rfl

theorem wal_load (d : Disk) {o : Options} (hr : System.Regular leftover s (.load o)) :
    (DB.load o d).2.wal = d.wal := by
  have hwal := wal_prepare o d
  unfold DB.load
  split <;> rename_i hprep <;> rw [hprep] at hwal
  · exact hwal
  · split
    · exact hwal
    · rw [rollback_of_regular hr]
      exact hwal

theorem lengthens_starts {c : Call} (hstart : Starts s db c s') :
    Lengthens s s' := by
  cases hstart with
  | initialised => exact .of_eq (s.disk.wal_initEmptyDB _)
  | rewrites => exact .of_eq (s.disk.wal_rewriteSnapshot _)
  | refused | edited | saveFailed | sends | writes | clones | closes | awaits | ends =>
    exact .of_eq rfl

theorem lengthens_proceeds (hp : Proceeds s db none s') : Lengthens s s' := by
  cases hp with
  | written _ hw =>
    obtain ⟨-,rfl⟩ := IndexedLog.writeBatch_eq_some.mp hw
    exact ⟨_,rfl⟩
  | passed | notRewritten | dropped | notCaughtUp | notReplayed | prunes =>
    exact lengthens_finishCommit rfl _ _
  | sent | outOfOrder | checked | quit | received | switched | waited | awaits | closed | ends =>
    exact .of_eq rfl

theorem lengthens_rewrites {d : Disk} {r r' : Rewriter} (hd : Rewrites s.disk r d r') :
    d.wal = s.disk.wal := by
  cases hd with
  | renamed _ hr => exact Disk.wal_renameTmp hr
  | linked _ hl => exact (Disk.sameDirs_linkTmp hl).wal
  | switched _ hl => exact (Disk.sameDirs_renameLink hl).wal
  | wrote | cancelled | failed | notLoaded | loaded | caughtUp => rfl

/-- Regular actions other than pruning only append to the log. -/
theorem lengthens_step (hund : s.Undelivered) {a : Act}
    (hr : System.Regular leftover s a) (hstep : s.step a = some s') : Lengthens s s' := by
  cases turns_of_step hstep with
  | loaded _ _ hload | notLoaded _ _ hload =>
    have hwal := wal_load s.disk hr
    rw [hload] at hwal
    exact .of_eq hwal
  | starts hdb _ hstart => exact lengthens_starts hstart
  | proceeds hdb hp =>
    obtain rfl := hr
    exact lengthens_proceeds hp
  | writes hdb hc hw =>
    obtain rfl := hr
    cases AsyncCommit.steps_of_step hw with
    | write | fail => exact ⟨_,rfl⟩
    | receive | quit | count | collect | collected | read | refuse => exact .of_eq rfl
  | rewrites _ _ hd => exact .of_eq (lengthens_rewrites hd)
  | prunes hp =>
    rw [hund.pruner] at hp
    cases hp
  | crashed | interrupted => exact hr.elim

theorem Lengthens.trans {s₁ : System} (hl : Lengthens s s₁) (hl' : Lengthens s₁ s') :
    Lengthens s s' := by
  obtain ⟨xs,hxs⟩ := hl
  obtain ⟨ys,hys⟩ := hl'
  exact ⟨xs ++ ys,by rw [hys,hxs,IndexedLog.append_append]⟩

/-- Regular actions during which no snapshot is delivered. -/
def Undisturbed (s : System) (a : Act) : Prop := System.Regular [] s a ∧ ¬s.Delivers a

theorem lengthens_run (hok : s.Ok) (hund : s.Undelivered)
    (hrun : Run System.step Undisturbed s s') :
    s'.Ok ∧ s'.Undelivered ∧ Lengthens s s' := by
  refine hrun.invariant (I := fun t => t.Ok ∧ t.Undelivered ∧ Lengthens s t)
    ⟨hok,hund,.of_eq rfl⟩ ?_
  rintro t a t' ⟨hok,hund,hl⟩ ⟨hr,hd⟩ hstep
  exact ⟨hok.step hstep,hund.step hd hstep,hl.trans (lengthens_step hund hr hstep)⟩

/-- A version is always returned with the same view. -/
theorem view_unique (hs : s.Remembers h leftover) {w : ℕ} {view view' : View}
    (hev : Event.returned .commit (.version w) view ∈ s.trace)
    (hev' : Event.returned .commit (.version w) view' ∈ s.trace) : view' = view := by
  obtain ⟨t,ht,-,-,rfl,-⟩ := exists_place hs.faithful.valid (hs.tells _ hev)
  obtain ⟨t',ht',-,-,rfl,-⟩ := exists_place hs.faithful.valid (hs.tells _ hev')
  exact ht'.view_eq ht

/-- What holds when the versions of `s₀` are committed again, up to a state `s`. -/
structure Recommits (s₀ s : System) : Prop where
  /-- A version is returned with the trees and the commit info of the first time. -/
  same : ∀ w view view', Event.returned .commit (.version w) view ∈ s₀.trace →
    Event.returned .commit (.version w) view' ∈ s.trace → view' = view
  ok : ∀ r view, Event.returned .commit r view ∈ s.trace → ∃ w, r = .version w
  log : ∀ i e, s₀.disk.wal.read i = some e → s.disk.wal.read i = some e
  /-- The next `Commit` returns the next version, whatever the goroutines do. -/
  returns : ∀ db, s.db = some db → db.phase = .idle → db.Regular s.disk .commit →
    ∃ s', s.step (.call .commit) = some s' ∧ Inevitably
      (Moves System.step (Clean [] True)) (Returned .commit
        (· = .version (nextVersion db.mtree.version db.mtree.initialVersion))) s'
  /-- `Load` of the closed database gives its last version. -/
  reload : s.db = none → ∀ w view, Event.returned .commit (.version w) view ∈ s.trace →
    (∀ w' view', Event.returned .commit (.version w') view' ∈ s.trace → w' ≤ w) →
    ∀ o : Options, o.validate = none → o.targetVersion = 0 → o.loadForOverwriting = false →
      ∃ db d, DB.load o s.disk = (.ok db,d) ∧ db.mtree.view = view

theorem recommits {s₀ : System} (hok : s₀.Ok) (hs₀ : s₀.Remembers h []) (h0 : h.start.version = 0)
    (hclosed : s₀.db = none) (hp : s₀.pruner = none)
    (hrun : Run System.step Undisturbed s₀ s) : Recommits s₀ s := by
  obtain ⟨hok',hund,xs,hxs⟩ := lengthens_run hok ⟨by simp [hclosed],by simp [hclosed],hp⟩ hrun
  obtain ⟨-,h',hg⟩ := hs₀.faithful.run hok (hrun.mono fun _ _ ha => ha.1)
  have hs := hg.remembers hs₀
  have h0' := hg.leads.start.trans h0
  obtain ⟨events,htrace,-⟩ := hg.trace
  refine ⟨?_,?_,?_,?_,?_⟩
  · intro w view view' hev hev'
    exact view_unique hs (by rw [htrace]; exact List.mem_append_left _ hev) hev'
  · intro r view hev
    have htells := hs.tells _ hev
    cases r with
    | version w => exact ⟨w,rfl⟩
    | done | error => exact htells.elim
  · intro i e he
    rw [hxs]
    exact IndexedLog.read_append he xs
  · intro db hdb hidle hr
    obtain ⟨s',h₁,-,hstep,-,-,-,hend⟩ := @commit_inevitably s h' [] db True hok' hs.faithful hdb
      hidle hr (.inl ⟨trivial,hund⟩)
    exact ⟨s',hstep,hend.mono fun t ht => ht.returned⟩
  · intro hnone w view hev hlatest o ho hT hover
    obtain ⟨db,hload,-,hview,-⟩ := load_committed hs h0' hnone hev ho hover
      (.inl (by rw [hT]; rfl)) (.inr hlatest)
    exact ⟨db,_,hload,hview⟩

/-- A database of a regular run, opened for writing at a version `v` that it has committed: it shows
that version, and committing the later versions again gives the same results and leaves the log as
it is, exactly if the name of every snapshot can be parsed. The pending changes of a version that
the log has already are those of its entry (`DB.Regular`). -/
theorem recommit_iff {s₀ : System} (hrun : Run System.step (System.Regular []) {} s₀)
    (hclosed : s₀.db = none) (hp : s₀.pruner = none) {v : ℕ} {view : View}
    (hev : Event.returned .commit (.version v) view ∈ s₀.trace) (hge : ∃ e ∈ s₀.disk.versions, e ≤ v)
    {o : Options} (ho : o.validate = none) (hover : o.loadForOverwriting = false)
    (hT : o.targetVersion.toNat = v) :
    (∃ s₁ db, s₀.step (.load o) = some s₁ ∧ s₁.db = some db ∧ db.mtree.view = view ∧
        ∀ s, Run System.step Undisturbed s₁ s → Recommits s₀ s) ↔
      ∀ e ∈ s₀.disk.versions, e < 2^31 := by
  have hok := (reachable_of_run hrun).ok
  rcases exists_remembers hrun with rfl | ⟨h,hs,h0⟩
  · cases hev
  have hne : o.targetVersion.toNat ≠ 0 := by
    obtain ⟨-,-,-,hne,-⟩ := exists_place hs.faithful.valid (hs.tells _ hev)
    rw [hT]
    exact hne
  constructor
  · rintro ⟨s₁,db,hstep,hdb,-⟩
    cases hload : DB.load o s₀.disk with
    | mk r d =>
      simp only [System.step,hclosed,hp,hload] at hstep
      cases r with
      | error e =>
        cases hstep
        cases hdb
      | ok db' => exact parsed_of_load hs.faithful ho hload hne
  · intro hparsed
    obtain ⟨db,hload,-,hview,-⟩ := load_committed hs h0 hclosed hev ho hover
      (.inr ⟨hT.ge,by rwa [hT],hparsed⟩) (.inl hT)
    have hstep := step_load hclosed hp hload
    refine ⟨_,db,hstep,rfl,hview,fun s hrun' => recommits hok hs h0 hclosed hp (.head ?_ hrun')⟩
    exact ⟨.load o,⟨.inr ⟨hover,rfl⟩,by simp [Delivers]⟩,hstep⟩

/-- The database with versions 10 and 11 can commit version 11 again. -/
theorem recommit_initial_ten : ∃ (s₀ s₁ : System) (o : Options) (db : DB),
    Run System.step (System.Regular []) {} s₀ ∧ o.targetVersion = 10 ∧
      s₀.step (.load o) = some s₁ ∧ s₁.db = some db ∧
      ∀ s, Run System.step Undisturbed s₁ s → Recommits s₀ s := by
  have hex : (exec System.step (System.Regular []) initialTenActs {}).any (fun s =>
      s.db = none ∧ s.pruner = none ∧ s.trace.filterMap (committedView? 10) ≠ [] ∧
        s.disk.versions = [0]) = true := by
    decide +kernel
  obtain ⟨s,hrun,hex⟩ := Run.exists_of_exec hex
  obtain ⟨hclosed,hp,hview,hversions⟩ := of_decide_eq_true hex
  obtain ⟨view,hview⟩ := List.exists_mem_of_ne_nil _ hview
  obtain ⟨s₁,db,hstep,hdb,-,hall⟩ := (recommit_iff hrun hclosed hp (mem_trace_of_view hview)
    ⟨0,by simp [hversions],by decide⟩ (o := { targetVersion := 10 }) rfl rfl rfl).mpr
    (by simp [hversions])
  exact ⟨s,s₁,_,db,hrun,rfl,hstep,hdb,hall⟩

def largeVersionsActs : List Act :=
  [.load { createIfMissing := true, initialVersion := 2147483648, asyncCommitBuffer := -1 }] ++
    commitActs ++ [.call .rewriteSnapshot] ++ commitActs ++ [.call .close]

/-- The first of them cannot be opened to commit the second again. -/
theorem recommit_large_version_fails : ∃ (s₀ s₁ : System) (o : Options) (view : View),
    Run System.step (System.Regular []) {} s₀ ∧ s₀.db = none ∧ s₀.pruner = none ∧
      Event.returned .commit (.version (2^31)) view ∈ s₀.trace ∧ s₀.disk.versions = [0,2^31] ∧
      o.targetVersion.toNat = 2^31 ∧ s₀.step (.load o) = some s₁ ∧ s₁.db = none := by
  have hex : (exec System.step (System.Regular []) largeVersionsActs {}).any (fun s =>
      s.db = none ∧ s.pruner = none ∧ s.trace.filterMap (committedView? (2^31)) ≠ [] ∧
        s.disk.versions = [0,2^31] ∧
        (s.step (.load { targetVersion := 2147483648 })).any fun s₁ => s₁.db = none) = true := by
    decide +kernel
  obtain ⟨s,hrun,hex⟩ := Run.exists_of_exec hex
  obtain ⟨hclosed,hp,hview,hversions,hex⟩ := of_decide_eq_true hex
  obtain ⟨view,hview⟩ := List.exists_mem_of_ne_nil _ hview
  obtain ⟨s₁,hstep,hs₁⟩ := (Option.any_eq_true ..).mp hex
  exact ⟨s,s₁,_,view,hrun,hclosed,hp,mem_trace_of_view hview,hversions,rfl,hstep,
    of_decide_eq_true hs₁⟩

end System

end Memiavl
