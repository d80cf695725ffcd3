import Memiavl.Crash
import Memiavl.SnapshotContent

/-! A process that ends during `RewriteSnapshot`: what the directory is left with, and which
snapshots can still be written afterwards. -/
namespace Memiavl

open Option Transition

namespace Disk

variable {d d' : Disk} {t : MultiTree}

theorem updateCurrentSymlink_eq_none (d : Disk) (v : ℕ) :
    (d.updateCurrentSymlink v).2 = none ↔ d.currentTmp = none := by
  unfold updateCurrentSymlink linkTmp renameLink
  cases d.currentTmp <;> simp

/-- `RewriteSnapshot` returns nil exactly if neither the snapshot nor the temporary link is there. -/
theorem rewriteSnapshot_eq_none (d : Disk) (t : MultiTree) :
    (d.rewriteSnapshot t).2 = none ↔ t.version ∉ d.versions ∧ d.currentTmp = none := by
  have hl : (d.writeTmp t).tmpDirs.lookup t.version = _ := lookup_putDir ..
  unfold rewriteSnapshot
  simp only
  split
  · rename_i hr
    have hmem : t.version ∈ d.versions := by
      by_contra hnew
      rw [renameTmp_eq_some.mpr ⟨_,hl,hnew,rfl⟩] at hr
      cases hr
    simp [hmem]
  · rename_i d₁ hr
    obtain ⟨dir,-,hnew,rfl⟩ := renameTmp_eq_some.mp hr
    rw [updateCurrentSymlink_eq_none]
    exact (and_iff_right hnew).symm

theorem currentTmp_updateCurrentSymlink (d : Disk) (v : ℕ) :
    (d.updateCurrentSymlink v).1.currentTmp = d.currentTmp := by
  unfold updateCurrentSymlink linkTmp renameLink
  cases hlink : d.currentTmp <;> simp [hlink]

theorem currentTmp_rewriteSnapshot (d : Disk) (t : MultiTree) :
    (d.rewriteSnapshot t).1.currentTmp = d.currentTmp := by
  unfold rewriteSnapshot
  simp only
  split
  · rfl
  · rename_i d₁ hr
    obtain ⟨dir,-,-,rfl⟩ := renameTmp_eq_some.mp hr
    exact currentTmp_updateCurrentSymlink ..

theorem currentTmp_initEmptyDB (d : Disk) (iv : UInt32) :
    (d.initEmptyDB iv).1.currentTmp = d.currentTmp :=
  currentTmp_updateCurrentSymlink ..

theorem currentTmp_createDBIfNotExist (d : Disk) (iv : UInt32) :
    (d.createDBIfNotExist iv).1.currentTmp = d.currentTmp := by
  unfold createDBIfNotExist
  split
  · exact currentTmp_initEmptyDB d iv
  · split
    · rfl
    · exact currentTmp_initEmptyDB d iv

theorem currentTmp_overwrite (d : Disk) (T v : ℕ) (iv : UInt32) :
    (d.overwrite T v iv).1.currentTmp = d.currentTmp := by
  have hset : ∀ c, (if v = c then (d,none) else d.updateCurrentSymlink v).1.currentTmp =
      d.currentTmp := by
    intro c
    split
    · rfl
    · exact currentTmp_updateCurrentSymlink d v
  unfold overwrite
  split
  · rfl
  · rename_i c _
    have hc := hset c
    split
    · rename_i d₁ e he
      rwa [he] at hc
    · rename_i d₁ he
      rw [he] at hc
      split
      · exact hc
      · simp only
        split <;> exact hc

section
variable (hlink : d.currentTmp ≠ none)
include hlink

theorem currentTmp_initPoints {iv : UInt32} (hd' : d' ∈ d.initPoints iv) :
    d'.currentTmp ≠ none := by
  rcases List.mem_cons.mp hd' with rfl | hd'
  · exact hlink
  · exact absurd (linkTmp_eq_some.mp (mem_toList.mp hd')).1 hlink

theorem currentTmp_createPoints {iv : UInt32} (hd' : d' ∈ d.createPoints iv) :
    d'.currentTmp ≠ none := by
  unfold createPoints at hd'
  split at hd'
  · exact currentTmp_initPoints hlink hd'
  · split at hd'
    · cases hd'
    · exact currentTmp_initPoints hlink hd'

theorem currentTmp_overwritePoints {T v : ℕ} {iv : UInt32} (hd' : d' ∈ d.overwritePoints T v iv) :
    d'.currentTmp ≠ none := by
  rcases mem_overwritePoints hd' with hl | ⟨d₁,wal,snapshots,-,hd₁,rfl⟩
  · exact absurd (linkTmp_eq_some.mp hl).1 hlink
  · rcases hd₁ with rfl | hd₁
    · exact hlink
    · have hnone := (updateCurrentSymlink_eq_none d v).mp (congrArg Prod.snd hd₁)
      exact absurd hnone hlink

end

end Disk

namespace DB

theorem currentTmp_prepare (o : Options) (d : Disk) :
    (prepare o d).1.currentTmp = d.currentTmp := by
  have hset : (if o.createIfMissing then d.createDBIfNotExist o.initialVersion
      else (d,none)).1.currentTmp = d.currentTmp := by
    split
    · exact Disk.currentTmp_createDBIfNotExist ..
    · rfl
  unfold prepare
  split
  · rfl
  · split
    · rename_i he
      rwa [he] at hset
    · rename_i he
      rw [he] at hset
      simp only
      split <;> exact hset

theorem currentTmp_load (o : Options) (d : Disk) : (load o d).2.currentTmp = d.currentTmp := by
  have hprep := currentTmp_prepare o d
  unfold load
  split
  · rename_i he
    rwa [he] at hprep
  · rename_i d₁ he
    rw [he] at hprep
    split
    · exact hprep
    · rename_i v mtree _
      have hroll : (rollback o d₁ v mtree.initialVersion).1.currentTmp = d₁.currentTmp := by
        unfold rollback
        split
        · exact Disk.currentTmp_overwrite ..
        · rfl
      split <;> rename_i hr <;> rw [hr] at hroll <;> exact hroll.trans hprep

theorem currentTmp_loadPoints {o : Options} {d d' : Disk} (hlink : d.currentTmp ≠ none)
    (hd' : d' ∈ loadPoints o d) : d'.currentTmp ≠ none := by
  rcases List.mem_append.mp hd' with hd' | hd'
  · split at hd'
    · exact Disk.currentTmp_createPoints hlink hd'
    · cases hd'
  · have hprep := currentTmp_prepare o d
    split at hd'
    · cases hd'
    · rename_i he
      rw [he] at hprep
      rw [← hprep] at hlink
      rcases List.mem_cons.mp hd' with rfl | hd'
      · exact hlink
      · split at hd'
        · cases hd'
        · split at hd'
          · exact Disk.currentTmp_overwritePoints hlink hd'
          · cases hd'

/-- The goroutine that rewrites a snapshot has created the temporary link. -/
def Linking (db : DB) : Prop := ∃ r ∈ db.rewriter, r.stage = .switching

end DB

namespace System

variable {s s' : System} {db : DB} {f : Option ℕ}

def Linking (s : System) : Prop := ∃ db ∈ s.db, db.Linking

/-- The temporary link is as before. -/
structure SameLink (s s' : System) : Prop where
  currentTmp : s'.disk.currentTmp = s.disk.currentTmp
  linking : s'.Linking ↔ s.Linking

theorem linking_some (hdb : s.db = some db) : s.Linking ↔ db.Linking := by
  simp [Linking,hdb]

section
variable {db' : DB} (hdb : s.db = some db) (hdb' : s'.db = some db')
  (hlink : s'.disk.currentTmp = s.disk.currentTmp)
include hdb hdb' hlink

theorem SameLink.of_db (hr : db'.Linking ↔ db.Linking) : SameLink s s' :=
  ⟨hlink,by rw [linking_some hdb,linking_some hdb',hr]⟩

theorem SameLink.of_not (hr : ¬db.Linking) (hr' : ¬db'.Linking) : SameLink s s' :=
  .of_db hdb hdb' hlink (iff_of_false hr' hr)

end

theorem SameLink.of_closed (hdb : s.db = some db) (hdb' : s'.db = none)
    (hlink : s'.disk.currentTmp = s.disk.currentTmp) (hr : ¬db.Linking) : SameLink s s' :=
  ⟨hlink,by rw [linking_some hdb]; exact iff_of_false (by simp [Linking,hdb']) hr⟩

theorem not_linking_of_none (h : db.rewriter = none) : ¬db.Linking := by
  simp [DB.Linking,h]

theorem not_linking_of_stage {r : Rewriter} (h : db.rewriter = some r) (hstage : r.stage ≠ .switching) :
    ¬db.Linking := by
  simpa [DB.Linking,h] using hstage

theorem sameLink_starts {c : Call} (hdb : s.db = some db) (h : Starts s db c s') : SameLink s s' := by
  cases h with
  | refused | saveFailed | sends | writes | closes | awaits => exact .of_db hdb rfl rfl .rfl
  | edited hedit =>
    have htouch := DB.touches_edit hedit
    exact .of_db hdb rfl rfl (by rw [DB.Linking,DB.Linking,htouch.rewriter])
  | initialised => exact .of_db hdb rfl (Disk.currentTmp_initEmptyDB ..) .rfl
  | rewrites => exact .of_db hdb rfl (Disk.currentTmp_rewriteSnapshot ..) .rfl
  | clones _ hr =>
    exact .of_not hdb rfl rfl (not_linking_of_none hr) (not_linking_of_stage rfl (by simp))
  | ends _ hr => exact .of_closed hdb rfl rfl (not_linking_of_none hr)

theorem sameLink_finishCommit {x : DB} {v : ℕ} {err : Option String} (hdb : s.db = some db)
    (hr : x.Linking ↔ db.Linking) {s₀ : System} (hlink : s₀.disk.currentTmp = s.disk.currentTmp) :
    SameLink s (s₀.finishCommit x v err) := by
  have hf := finishes_finishCommit s₀ x v err
  generalize s₀.finishCommit x v err = s' at hf
  cases hf with
  | failed | kept => exact .of_db hdb rfl hlink hr
  | clones hnone =>
    refine .of_not hdb rfl hlink ?_ (not_linking_of_stage rfl (by simp))
    rw [← hr]
    exact not_linking_of_none hnone

theorem sameLink_proceed (hdb : s.db = some db) (h : s.proceed db f = some s') : SameLink s s' := by
  cases proceeds_of_proceed h with
  | sent | broke | outOfOrder | written | checked | quit | switched | waited | awaits =>
    exact .of_db hdb rfl rfl .rfl
  | passed | notCaughtUp | prunes => exact sameLink_finishCommit hdb .rfl rfl
  | notRewritten _ hr hstage | dropped _ hr hstage =>
    exact sameLink_finishCommit hdb (iff_of_false (not_linking_of_none rfl)
      (not_linking_of_stage hr (by simp [hstage]))) rfl
  | received _ hr hstage =>
    exact .of_not hdb rfl rfl (not_linking_of_stage hr (by simp [hstage])) (not_linking_of_none rfl)
  | notReplayed => exact sameLink_finishCommit hdb (by rfl) rfl
  | closed _ _ _ hr => exact .of_closed hdb rfl rfl (not_linking_of_none hr)
  | ends hphase =>
    -- `Close` waits for the result of the goroutine.
    simp only [proceed,hphase,bind_eq_bind,bind_eq_some_iff] at h
    obtain ⟨r,hr,h⟩ := h
    refine .of_closed hdb rfl rfl (not_linking_of_stage hr fun hstage => ?_)
    rw [hstage] at h
    cases h

theorem sameLink_prunes {p : Pruner} (h : Prunes s p s') : SameLink s s' := by
  cases h with
  | ended | listed | panics => exact ⟨rfl,.rfl⟩
  | removed =>
    refine ⟨?_,.rfl⟩
    simp only [Disk.removeSnapshot]
    split <;> rfl
  | truncated =>
    refine ⟨?_,.rfl⟩
    simp only [Disk.truncateWAL]
    split <;> rfl

/-- A step of the goroutine creates the link, renames it, or leaves it alone. -/
theorem link_rewriteStep {d d' : Disk} {r r' : Rewriter} {ok : Bool}
    (h : rewriteStep d r ok = some (d',r')) :
    r.stage ≠ .switching ∧ r'.stage ≠ .switching ∧ d'.currentTmp = d.currentTmp ∨
      r.stage ≠ .switching ∧ r'.stage = .switching ∧ d.currentTmp = none ∨
      r.stage = .switching ∧ r'.stage ≠ .switching ∧ d'.currentTmp = none := by
  by_cases hstage : r.stage = .switching
  · simp only [rewriteStep,hstage,afterStep,Disk.renameLink,some.injEq] at h
    cases hlink : d.currentTmp <;> simp only [hlink] at h <;> cases h <;> simp [hstage,hlink]
  · cases rewrites_of_rewriteStep h with
    | wrote | cancelled | failed | notLoaded | loaded | caughtUp => exact .inl ⟨hstage,by simp,rfl⟩
    | renamed _ hr =>
      obtain ⟨dir,-,-,rfl⟩ := Disk.renameTmp_eq_some.mp hr
      exact .inl ⟨hstage,by simp,rfl⟩
    | linked _ hl => exact .inr (.inl ⟨hstage,rfl,(Disk.linkTmp_eq_some.mp hl).1⟩)
    | switched hswitch => exact absurd hswitch hstage

theorem sameLink_load {o : Options} (h : s.step (.load o) = some s') : SameLink s s' := by
  cases turns_of_step h with
  | loaded hnone _ hload =>
    have hlink := DB.currentTmp_load o s.disk
    rw [hload] at hlink
    obtain ⟨_,_,_,-,-,-,hopen⟩ := load_eq_ok hload
    have hr := (touches_openWith hopen).1.rewriter
    refine ⟨hlink,iff_of_false ?_ (by simp [Linking,hnone])⟩
    rw [linking_some rfl]
    exact not_linking_of_none hr
  | notLoaded hnone _ hload =>
    have hlink := DB.currentTmp_load o s.disk
    rw [hload] at hlink
    exact ⟨hlink,.rfl⟩

def Unbroken (_ : System) : Act → Prop
  | .crash _ | .interrupt .. => False
  | _ => True

/-- What a step of a running process does to the temporary link. -/
theorem link_step {a : Act} (h : s.step a = some s') (ha : s.Unbroken a) :
    SameLink s s' ∨ ¬s.Linking ∧ s'.Linking ∧ s.disk.currentTmp = none ∨
      s.Linking ∧ ¬s'.Linking ∧ s'.disk.currentTmp = none := by
  cases a with
  | load o => exact .inl (sameLink_load h)
  | call c =>
    cases turns_of_step h with
    | starts hdb _ hs => exact .inl (sameLink_starts hdb hs)
  | proceed f =>
    simp only [step,bind_eq_bind,bind_eq_some_iff] at h
    obtain ⟨db,hdb,h⟩ := h
    exact .inl (sameLink_proceed hdb h)
  | write f =>
    cases turns_of_step h with
    | writes hdb => exact .inl (.of_db hdb rfl rfl .rfl)
  | rewrite ok =>
    simp only [step,bind_eq_bind,bind_eq_some_iff] at h
    obtain ⟨db,hdb,r,hr,⟨d,r'⟩,hstep,h⟩ := h
    cases h
    have hs : s.Linking ↔ r.stage = .switching := by simp [Linking,DB.Linking,hdb,hr]
    have hs' : System.Linking { s with disk := d, db := some { db with rewriter := some r' } } ↔
        r'.stage = .switching := by simp [Linking,DB.Linking]
    rw [hs,hs']
    obtain ⟨hr,hr',hlink⟩ | hcreated | hrenamed := link_rewriteStep hstep
    · exact .inl ⟨hlink,by rw [hs,hs']; exact iff_of_false hr' hr⟩
    · exact .inr (.inl hcreated)
    · exact .inr (.inr hrenamed)
  | prune =>
    cases turns_of_step h with
    | prunes hp hs => exact .inl (sameLink_prunes hs)
  | crash | interrupt => exact ha.elim

/-- A temporary link that is there stays when the process ends during some work. -/
theorem currentTmp_points (hlink : s.disk.currentTmp ≠ none) {w : Work} {d : Disk}
    (hd : d ∈ s.points w) : d.currentTmp ≠ none := by
  cases w with
  | load o =>
    simp only [points] at hd
    split at hd
    · exact DB.currentTmp_loadPoints hlink hd
    · cases hd
  | setInitialVersion iv =>
    simp only [points] at hd
    split at hd
    · split at hd
      · unfold DB.initialVersionPoints at hd
        split at hd
        · cases hd
        · split at hd
          · cases hd
          · exact Disk.currentTmp_initPoints hlink hd
      · cases hd
    · cases hd
  | rewriteSnapshot =>
    simp only [points] at hd
    split at hd
    · split at hd
      · cases Disk.interrupted_of_mem hd with
        | started | filling => exact hlink
        | renamed hr =>
          obtain ⟨dir,-,-,rfl⟩ := Disk.renameTmp_eq_some.mp hr
          exact hlink
        | linked hr hl | switched hr hl _ =>
          obtain ⟨dir,-,-,rfl⟩ := Disk.renameTmp_eq_some.mp hr
          exact absurd (Disk.linkTmp_eq_some.mp hl).1 hlink
      · cases hd
    · cases hd

/-- A temporary link that nobody is going to rename. -/
def Stuck (s : System) : Prop := s.disk.currentTmp ≠ none ∧ ¬s.Linking

theorem Stuck.step {a : Act} (hs : s.Stuck) (h : s.step a = some s') : s'.Stuck := by
  obtain ⟨hlink,hl⟩ := hs
  have hon : s.Unbroken a → s'.Stuck := fun ha => by
    obtain hsame | ⟨-,-,hnone⟩ | ⟨hl',-⟩ := link_step h ha
    · exact ⟨hsame.currentTmp ▸ hlink,hsame.linking.not.mpr hl⟩
    · exact absurd hnone hlink
    · exact absurd hl' hl
  cases a with
  | load | call | proceed | write | rewrite | prune => exact hon trivial
  | crash keep =>
    cases h
    exact ⟨hlink,by simp [Linking,endsWith]⟩
  | interrupt w n keep =>
    cases turns_of_step h with
    | interrupted hd =>
      have hleft := currentTmp_points hlink hd
      exact ⟨hleft,by simp [Linking,endsWith]⟩

theorem Stuck.run (hs : s.Stuck) (hrun : Run System.step (fun _ _ => True) s s') :
    s'.Stuck :=
  hrun.invariant (I := Stuck) hs fun _ _ _ hs _ hstep => hs.step hstep

/-- A temporary link is there only while a goroutine is going to rename it. -/
def Tidy (s : System) : Prop := s.disk.currentTmp ≠ none → s.Linking

theorem Tidy.step {a : Act} (hs : s.Tidy) (ha : s.Unbroken a) (h : s.step a = some s') : s'.Tidy := by
  intro hlink
  obtain hsame | ⟨-,hl,-⟩ | ⟨-,-,hnone⟩ := link_step h ha
  · rw [hsame.currentTmp] at hlink
    exact hsame.linking.mpr (hs hlink)
  · exact hl
  · exact absurd hnone hlink

/-- `RewriteSnapshot` returns nil and its snapshot becomes the current one. -/
def CanRewrite (s : System) (db : DB) : Prop := ∃ s', s.step (.call .rewriteSnapshot) = some s' ∧
  s'.Returned .rewriteSnapshot (· = .done) ∧ s'.disk.current = some db.mtree.version

theorem canRewrite_iff (hdb : s.db = some db) (hidle : db.phase = .idle)
    (hro : db.opts.readOnly = false) :
    s.CanRewrite db ↔ db.mtree.version ∉ s.disk.versions ∧ s.disk.currentTmp = none := by
  rw [← Disk.rewriteSnapshot_eq_none]
  constructor
  · rintro ⟨s',hstep,hret,-⟩
    exact (step_rewriteSnapshot hdb hstep hret).2.1
  · intro hnone
    refine ⟨{ s with disk := (s.disk.rewriteSnapshot db.mtree).1 }.ret db .rewriteSnapshot .done,
      ?_,?_,?_⟩
    · simp [System.step,hdb,hidle,startCall,hro,hnone,Reply.ofError]
    · refine ⟨?_,_,_,List.getLast?_concat ..,rfl⟩
      rintro x ⟨⟩
      rfl
    · exact (Disk.rewriteSnapshot_eq_ok (Prod.ext rfl hnone)).2.1

/-- The open database can write its snapshot, and in every later run of the process a snapshot
that is not there yet can be written. -/
def Rewritable (s : System) : Prop :=
  (∀ db ∈ s.db, s.CanRewrite db) ∧ ∀ s', Run System.step Unbroken s s' →
    ∀ db, s'.db = some db → db.phase = .idle → db.opts.readOnly = false → db.rewriter = none →
      db.mtree.version ∉ s'.disk.versions → s'.CanRewrite db

theorem rewritable_iff (hdb : s.db = some db) (hidle : db.phase = .idle)
    (hro : db.opts.readOnly = false) :
    s.Rewritable ↔ db.mtree.version ∉ s.disk.versions ∧ s.disk.currentTmp = none := by
  rw [← canRewrite_iff hdb hidle hro]
  constructor
  · exact fun h => h.1 db hdb
  · intro hcan
    have hlink := ((canRewrite_iff hdb hidle hro).mp hcan).2
    refine ⟨?_,fun s' hrun db' hdb' hidle' hro' hnone hnew => ?_⟩
    · intro x hx
      cases hdb.symm.trans hx
      exact hcan
    · have htidy : s'.Tidy := hrun.invariant (I := Tidy) (fun hne => absurd hlink hne)
        fun t a t' ht ha hstep => ht.step ha hstep
      refine (canRewrite_iff hdb' hidle' hro').mpr ⟨hnew,?_⟩
      by_contra hne
      exact not_linking_of_none hnone ((linking_some hdb').mp (htidy hne))

end System

namespace System

variable {s : System} {db : DB} {h : History} {leftover : List (ℕ × SnapshotDir)} {d : Disk}

def ended (s : System) (d : Disk) : System := { s with disk := d, db := none, pruner := none }

/-- A directory that is left when the process ends during `RewriteSnapshot`, or between the steps
of the goroutine that rewrites a snapshot. -/
def Interrupts (s : System) (db : DB) (d : Disk) : Prop :=
  d = s.disk ∨ db.opts.readOnly = false ∧ db.Regular s.disk .rewriteSnapshot ∧
    s.disk.Interrupted db.mtree d

theorem keeps_interrupts (hok : s.Ok) (hs : s.Faithful h leftover) (hdb : s.db = some db)
    (hidle : db.phase = .idle) (hi : s.Interrupts db d) :
    d.Keeps h leftover ∧ d.wal = s.disk.wal := by
  rcases hi with rfl | ⟨hro,⟨-,hpending,hne,hfits⟩,hi⟩
  · exact ⟨hs.disk,rfl⟩
  · have ht := hs.db db hdb
    have hshows := shows_of_pending_nil ht hidle hpending (hok.db db hdb).base.sane
    exact hs.disk.interrupted hs.valid (ht.tmpDirs hro) hshows hne hfits ht.base hi

theorem length_of_lastIndex (hok : s.Ok) (hs : s.Faithful h leftover) (hdb : s.db = some db)
    (hlog : s.disk.wal.lastIndex = db.mtree.position) :
    s.disk.wal.lastIndex = h.entries.length := by
  have hbound := (hok.db db hdb).flight_bound
  have hflight := hs.flight
  rw [flight_some hdb] at hflight
  rcases hflight.lastIndex_or_le hbound with heq | hle
  · exact heq
  · exact le_antisymm hs.flight.le (hlog ▸ hle)

theorem faithful_ended (hs : s.Faithful h leftover) (hd : d.Keeps h leftover)
    (hlast : d.wal.lastIndex = h.entries.length) : (s.ended d).Faithful h leftover :=
  faithful_closed hs.valid hs.small hs.leftover hd rfl rfl hlast

theorem version_of_view {t t' : MultiTree} (h : t.view = t'.view) : t.version = t'.version :=
  congrArg (fun view => view.lastCommitInfo.version) h

theorem load_latest (hs : s.Faithful h leftover) (hnone : s.db = none) {o : Options}
    (ho : o.validate = none) (hT : o.targetVersion = 0) {t : MultiTree}
    (ht : h.Shows h.entries.length t) (hne : t.version ≠ 0) :
    ∃ t', DB.load o s.disk =
        (.ok { opts := o, mtree := t' },if o.readOnly then s.disk else s.disk.removeTmpDirs) ∧
      t'.view = t.view := by
  obtain ⟨c,t',hc,hl,ht'⟩ := (hs.disk.prepared o.readOnly).loadTarget_zero hs.valid
  have hle := (hs.disk.prepared o.readOnly).current_le hs.valid hc
  have hwal : (if o.readOnly then s.disk else s.disk.removeTmpDirs).wal = s.disk.wal := by
    split <;> rfl
  rw [hwal,lastIndex_of_closed hs hnone,max_eq_right hle] at ht'
  have hview := ht'.view_eq ht
  have hne' : t'.version ≠ 0 := by
    rwa [version_of_view hview]
  have hr : System.Regular leftover s (.load o) := .inl hT
  have hl' : (if o.readOnly then s.disk else s.disk.removeTmpDirs).loadTarget
      o.targetVersion.toNat = .ok (c,t') := by rw [hT]; exact hl
  refine ⟨t',?_,hview⟩
  simp only [DB.load,hs.disk.prepare_eq ho,hl',rollback_of_regular hr,DB.openWith,hne',false_and,
    and_false,if_false]

def twoVersions : List Act :=
  [.load { createIfMissing := true, asyncCommitBuffer := -1 }] ++ commitActs ++ commitActs

end System

end Memiavl
