import Memiavl.Latest

/-! `Load` with `LoadForOverwriting`, and the `Commit` after it. -/
namespace Memiavl

open MultiTree List Option Transition

theorem Consecutive.of_append_right {first : ℕ} {es es' : List WalEntry}
    (h : Consecutive first (es ++ es')) : Consecutive (first+es.length) es' := by
  rw [Consecutive,map_append,length_append,← range'_append_1] at h
  exact (append_inj h (by simp)).2

/-- A goroutine that holds the entries that come next in the log, with `held` to follow, does not
fail. -/
theorem AsyncCommit.Steps.consecutive {c c' : AsyncCommit} {wal wal' : IndexedLog WALEntry}
    {held : List WalEntry} (h : Steps wal none c c' wal') (hopen : c.closed = false)
    (hc : Consecutive (wal.lastIndex+1) (c.flight ++ held)) :
    ¬c'.writer.Dead ∧ Consecutive (wal'.lastIndex+1) (c'.flight ++ held) := by
  cases h with
  | receive hw hq | collect hw hq =>
    refine ⟨id,?_⟩
    simpa [flight,hw,hq,Writer.Dead,Writer.items] using hc
  | quit _ _ hclosed =>
    rw [hopen] at hclosed
    cases hclosed
  | count hw | collected hw =>
    refine ⟨id,?_⟩
    simpa [flight,hw,Writer.Dead,Writer.items] using hc
  | @read entries hw =>
    rw [flight_of_alive (by rw [hw]; exact id),hw,Writer.items] at hc
    have hnew : entries.filter (wal.lastIndex < ·.index) = entries := by
      rw [filter_eq_self]
      intro e he
      have := (Consecutive.of_append (append_assoc .. ▸ hc)).bounds he
      simp only [decide_eq_true_eq]
      omega
    refine ⟨id,?_⟩
    rw [flight_of_alive id]
    simpa [Writer.items,foldl_writeEntry,hnew,Function.comp_def] using hc
  | @write batch hw hi =>
    rw [flight_of_alive (by rw [hw]; exact id),hw,Writer.items,append_assoc] at hc
    refine ⟨id,?_⟩
    have hrest := hc.of_append_right
    rw [flight_of_alive id]
    simpa [Writer.items,Nat.add_right_comm] using hrest
  | @refuse batch _ hw hi =>
    rw [flight_of_alive (by rw [hw]; exact id),hw,Writer.items,append_assoc] at hc
    refine absurd ?_ hi
    simpa [Consecutive,Function.comp_def] using hc.of_append
  | fail hf _ => cases hf

theorem AsyncCommit.alive_send {c c' : AsyncCommit} {entry : WalEntry}
    (h : c.send entry = some c') (halive : ¬c.writer.Dead) : ¬c'.writer.Dead := by
  unfold AsyncCommit.send at h
  split at h
  · cases h
    exact halive
  · split at h <;> cases h
    exact id

namespace System

variable {s s' : System} {db : DB} {v : ℕ}

theorem walChan_of_writing (hok : s.Ok) (hdb : s.db = some db) {e : WalEntry}
    (hphase : db.phase = .writing v e) : db.walChan = none := by
  have hp := (hok.db db hdb).phase
  rw [DB.PhaseOk,hphase] at hp
  cases hc : db.walChan with
  | none => rfl
  | some c => exact absurd ((hok.db db hdb).base.chan c hc).2 (not_le.mpr hp.2.2)

theorem recvQuit_of_alive {c : AsyncCommit} (h : ¬c.writer.Dead) : recvQuit c = none := by
  unfold recvQuit
  cases hw : c.writer <;> rw [hw] at h <;> first | rfl | exact absurd trivial h

theorem returned_finishCommit_none (s : System) (db : DB) (v : ℕ) :
    (s.finishCommit db v none).Returned .commit (· = .version v) := by
  have hf := finishes_finishCommit s db v none
  generalize s.finishCommit db v none = s' at hf ⊢
  cases hf with
  | kept | clones => exact returned_ret rfl

/-- A `Commit` of version `v` is running without a rewrite, and all that is on its way to the log
comes next in it. -/
structure Settles (v : ℕ) (s : System) : Prop where
  ok : s.Ok
  db : ∃ db, s.db = some db ∧ db.rewriter = none ∧ db.phase.committing? = some v ∧
    ¬db.phase.Switching ∧ db.phase.error? = none ∧ (∀ c ∈ db.walChan, ¬c.writer.Dead) ∧
    Consecutive (s.disk.wal.lastIndex+1) db.flight

theorem Settles.background (hs : Settles v s) {a : Act} (ha : Clean [] False s a)
    (hbg : a.Background) (hstep : s.step a = some s') :
    Settles v s' ∧ s'.commitWork < s.commitWork := by
  obtain ⟨db,hdb,hr,hv,hsw,herr,halive,hnext⟩ := hs.db
  obtain ⟨db',hdb',hstay⟩ := background_db hs.ok hbg hdb hstep
  have hr' := hstay.rewriter
  rw [hr,isSome_none,isSome_eq_false_iff,isNone_iff_eq_none] at hr'
  refine ⟨⟨hs.ok.step hstep,db',hdb',hr',by rw [hstay.phase,hv],by rw [hstay.phase]; exact hsw,
    by rw [hstay.phase,herr],?_⟩,?_⟩
  · rcases hstay.chan with ⟨hc,hwal⟩ | ⟨c,c',failure,rfl,hc,hc',hsteps⟩
    · rw [hc,hwal.lastIndex_eq,DB.flight,chanFlight_congr hc,hstay.phase]
      exact ⟨halive,hnext⟩
    · obtain rfl : failure = none := ha.2.1
      have hopen : c.closed = false := by
        have hp := (hs.ok.db db hdb).phase
        rw [DB.PhaseOk] at hp
        cases hphase : db.phase <;> rw [hphase] at hp hv hsw <;>
          first | exact hp.1 c hc | exact absurd trivial hsw | cases hv
      rw [DB.flight,DB.chanFlight,hc] at hnext
      obtain ⟨halive',hnext'⟩ := hsteps.consecutive hopen hnext
      refine ⟨?_,?_⟩
      · rintro x hx
        cases hc'.symm.trans hx
        exact halive'
      · rw [DB.flight,DB.chanFlight,hc',hstay.phase]
        exact hnext'
  · rw [commitWork,commitWork,hdb,hdb',map_some,map_some,hstay.phase]
    exact Prod.Lex.right _ (work_lt hbg hstep)

theorem Settles.proceed (hs : Settles v s) (hstep : s.step (.proceed none) = some s') :
    s'.Returned .commit (· = .version v) ∨ Settles v s' ∧ s'.commitWork < s.commitWork := by
  obtain ⟨db,hdb,hr,hv,hsw,herr,halive,hnext⟩ := hs.db
  have hok' := hs.ok.step hstep
  have hok := hs.ok.db db hdb
  rw [step_proceed hdb] at hstep
  have hwork : ∀ {s₁ : System} {db₁ : DB}, s₁.db = some db₁ → db₁.phase.left < db.phase.left →
      s₁.commitWork < s.commitWork := by
    intro s₁ db₁ hdb₁ hlt
    rw [commitWork,commitWork,hdb,hdb₁,map_some,map_some]
    exact Prod.Lex.left _ _ hlt
  cases proceeds_of_proceed hstep with
  | @sent _ w e c c' hphase hc hsend =>
    rw [hphase] at hv
    obtain rfl := some.inj hv
    obtain ⟨-,-,-,hflight⟩ := AsyncCommit.flight_send (hok.base.chan c hc).1 hsend
    rw [if_neg (halive c hc)] at hflight
    refine .inr ⟨⟨hok',_,rfl,hr,rfl,id,rfl,?_,?_⟩,hwork rfl (by rw [hphase]; exact Nat.lt_succ_self _)⟩
    · rintro x ⟨⟩
      exact AsyncCommit.alive_send hsend (halive c hc)
    · simp only [DB.flight,DB.chanFlight,hc,hphase,Phase.held,map_some,
        getD_some] at hnext ⊢
      rw [hflight,List.append_nil]
      exact hnext
  | @outOfOrder w e hphase hw =>
    have hnone := walChan_of_writing hs.ok hdb hphase
    have hindex : e.index = s.disk.wal.lastIndex+1 := by
      simpa [DB.flight,DB.chanFlight,hnone,hphase,Phase.held,Consecutive] using hnext
    simp [writeEntry,hindex,IndexedLog.writeBatch] at hw
  | @written w e wal hphase hw =>
    rw [hphase] at hv
    obtain rfl := some.inj hv
    have hnone := walChan_of_writing hs.ok hdb hphase
    refine .inr ⟨⟨hok',_,rfl,hr,rfl,id,rfl,halive,?_⟩,
      hwork rfl (by rw [hphase]; exact Nat.lt_succ_self _)⟩
    simp [DB.flight,DB.chanFlight,hnone,Phase.held,Consecutive]
  | checked hphase =>
    rw [hphase] at hv
    obtain rfl := some.inj hv
    refine .inr ⟨⟨hok',_,rfl,hr,rfl,id,rfl,halive,?_⟩,
      hwork rfl (by rw [hphase]; exact Nat.lt_succ_self _)⟩
    rw [DB.flight,hphase] at hnext
    exact hnext
  | quit e hphase hquit =>
    obtain ⟨c,hc,hrecv⟩ := bind_eq_some_iff.mp hquit
    rw [recvQuit_of_alive (halive c hc)] at hrecv
    cases hrecv
  | passed hphase =>
    rw [hphase] at hv herr
    obtain rfl := some.inj hv
    obtain rfl : _ = none := herr
    exact .inl (returned_finishCommit_none s db _)
  | notRewritten _ hr' | dropped _ hr' | received _ hr' => cases hr.symm.trans hr'
  | notCaughtUp hphase | notReplayed hphase | switched hphase | prunes hphase =>
    exact absurd (by rw [hphase]; trivial) hsw
  | waited hphase | awaits hphase | closed hphase | ends hphase => rw [hphase] at hv; cases hv

/-- `Commit` or the goroutine of the log can take a step. -/
theorem Settles.exists_step (hs : Settles v s) : ∃ a s', Clean [] False s a ∧ s.step a = some s' := by
  obtain ⟨db,hdb,hr,hv,hsw,-,halive,-⟩ := hs.db
  have hp := (hs.ok.db db hdb).phase
  rw [DB.PhaseOk] at hp
  have hproceed : (∃ s', s.proceed db none = some s') →
      ∃ a s', Clean [] False s a ∧ s.step a = some s' := by
    rintro ⟨s',hs'⟩
    exact ⟨.proceed none,s',⟨trivial,rfl,False.elim⟩,by rw [step_proceed hdb,hs']⟩
  cases hphase : db.phase with
  | idle | waitQuit | closeQuit | closeRewrite =>
    rw [hphase] at hv
    cases hv
  | waiting | pruning => exact absurd (by rw [hphase]; trivial) hsw
  | sending w e =>
    rw [hphase] at hp
    obtain ⟨c,hc⟩ := isSome_iff_exists.mp hp.2.2
    cases hsend : c.send e with
    | some c' =>
      exact hproceed ⟨_,by
        simp only [System.proceed,hphase,hc,hsend,bind_eq_bind,bind_some]; rfl⟩
    | none =>
      obtain ⟨p,hp⟩ := AsyncCommit.exists_step_full ((hs.ok.db db hdb).base.chan c hc).1
        (halive c hc) hsend s.disk.wal
      obtain ⟨s',hs'⟩ := step_write hdb hc hp
      exact ⟨.write none,s',⟨trivial,rfl,False.elim⟩,hs'⟩
  | writing w e | checkAsyncCommit w =>
    refine hproceed ?_
    simp only [System.proceed,hphase]
    split <;> exact ⟨_,rfl⟩
  | checkRewrite w err => exact hproceed ⟨_,by simp only [System.proceed,hphase]; rfl⟩

theorem Settles.inevitably (hs : Settles v s) : Inevitably
    (Moves System.step (Clean [] False)) (Returned .commit (· = .version v)) s := by
  refine Inevitably.of_rank wellFounded_lt commitWork (A := Settles v) ?_ ?_ hs
  · rintro s t hs ⟨a,ha,hstep⟩
    cases a with
    | load o | call c | crash keep | interrupt w n keep => exact ha.1.elim
    | write f | rewrite ok | prune => exact .inr (hs.background ha trivial hstep)
    | proceed f =>
      obtain rfl : f = none := ha.2.1
      exact hs.proceed hstep
  · intro s hs
    obtain ⟨a,t,ha,hstep⟩ := hs.exists_step
    exact ⟨t,a,ha,hstep⟩

/-- The first `Commit` of a database that is open at the end of its log returns the next version,
whatever the goroutines do. -/
theorem commit_at_end (hok : s.Ok) (hdb : s.db = some db) (hidle : db.phase = .idle)
    (hro : db.opts.readOnly = false) (hr : db.rewriter = none) (hchan : db.walChan = none)
    (hlast : s.disk.wal.lastIndex = db.mtree.position)
    (hmax : ∀ e ∈ db.mtree.trees, e.tree.version.toNat ≠ maxUint32) :
    ∃ s', s.step (.call .commit) = some s' ∧ Inevitably
      (Moves System.step (Clean [] False)) (Returned .commit
        (· = .version (nextVersion db.mtree.version db.mtree.initialVersion))) s' := by
  have hstep := step_call hdb hidle .commit
  have hok' := hok.step hstep
  have hsane := (hok.db db hdb).base.sane
  refine ⟨_,hstep,Settles.inevitably ⟨hok',?_⟩⟩
  have hstart := starts_startCall s db .commit
  generalize s.startCall db .commit = s' at hstart
  cases hstart with
  | refused r _ hcommit =>
    rw [hcommit rfl] at hro
    cases hro
  | edited he => cases he
  | saveFailed _ he =>
    obtain ⟨t,v,hsave⟩ := exists_saveVersion hmax true
    rw [hsave] at he
    cases he
  | sends _ hsave =>
    refine ⟨_,rfl,hr,congrArg some (version_saved hsave),id,rfl,?_,?_⟩
    · rw [hchan]
      rintro c ⟨⟩
      exact id
    · simp [DB.flight,DB.chanFlight,hchan,AsyncCommit.flight,Writer.items,Writer.Dead,Phase.held,
        Consecutive,put,index_entry hsane hsave,hlast]
  | writes _ hsave =>
    refine ⟨_,rfl,hr,congrArg some (version_saved hsave),id,rfl,?_,?_⟩
    · simp [hchan]
    · simp [DB.flight,DB.chanFlight,hchan,Phase.held,Consecutive,put,index_entry hsane hsave,hlast]
  | closes hc => cases hchan.symm.trans hc

end System

theorem MultiTree.catchupWAL_truncateBack {t₀ t : MultiTree} {wal wal' : IndexedLog WALEntry} {T : ℕ}
    (ht : t₀.Sane) (hT : 0 < T) (hc : t₀.catchupWAL wal T = .ok t) (hne : t ≠ t₀)
    (hcut : wal.truncateBack (walIndex T t₀.initialVersion) = some wal') :
    t₀.catchupWAL wal' 0 = .ok t := by
  obtain ⟨hrange,hlast,hread⟩ := IndexedLog.truncateBack_eq_some hcut
  obtain ⟨-,rfl⟩ | ⟨-,hend,t₁,hr,rfl⟩ := (catchupWAL_eq_ok ht).mp hc
  · exact absurd rfl hne
  · have hend₁ : t₀.endIndex wal T = walIndex T t₀.initialVersion := by
      rw [endIndex,if_neg (by omega)]
    have hend₂ : t₀.endIndex wal' 0 = wal'.lastIndex := if_pos rfl
    rw [hend₁] at hend hr
    rw [min_eq_left hrange.2] at hr
    refine (catchupWAL_eq_ok ht).mpr (.inr ⟨by omega,by omega,t₁,?_,rfl⟩)
    rw [hend₂,min_self,hlast,← hr]
    exact replayFrom_congr fun k _ hk => hread k (by omega)

namespace Disk

variable {d d' : Disk} {T v : ℕ} {iv : UInt32} {t : MultiTree}

/-- A directory that is set back to version `T`, which starts from the snapshot of version `v`. -/
def setBack (d : Disk) (T v : ℕ) (wal : IndexedLog WALEntry) : Disk :=
  { d with snapshots := d.snapshots.filter fun p => p.1 ≤ T, current := some v, wal }

/-- The link can be set to the snapshot of version `v`. -/
def CanLink (d : Disk) (v : ℕ) : Prop :=
  ∃ c, d.current = some c ∧ (c = v ∨ d.currentTmp = none)

theorem parse_head_of_seek (hseek : d.seekSnapshot T = .ok v) (e : String) :
    d.versions.reverse.head?.map parseVersion ≠ some (.error e) := by
  obtain ⟨larger,rest,heq,hl,-,hv⟩ := seekIn_eq_ok.mp hseek
  rw [heq]
  cases larger with
  | nil =>
    have hparse : parseVersion v = .ok v := if_pos hv
    simp [hparse]
  | cons w larger =>
    have hparse : parseVersion w = .ok w := if_pos (hl w mem_cons_self).2
    simp [hparse]

theorem setLink_eq {c : ℕ} (hc : d.current = some c) :
    (if v = c then (d,none) else d.updateCurrentSymlink v) =
      if c = v ∨ d.currentTmp = none then ({ d with current := some v },none)
      else (d,some "file exists") := by
  by_cases hv : v = c
  · rw [if_pos hv,if_pos (.inl hv.symm),hv,← hc]
  · unfold updateCurrentSymlink linkTmp renameLink
    cases hlink : d.currentTmp <;> simp [hv,Ne.symm hv]

theorem overwrite_eq_ok (hseek : d.seekSnapshot T = .ok v) : d.overwrite T v iv = (d',none) ↔
    d.CanLink v ∧ ∃ wal, d.wal.truncateBack (walIndex T iv) = some wal ∧ d' = d.setBack T v wal := by
  unfold overwrite CanLink
  cases hc : d.current with
  | none => simp
  | some c =>
    simp only [setLink_eq hc]
    by_cases hlink : c = v ∨ d.currentTmp = none
    · simp only [if_pos hlink]
      cases hcut : d.wal.truncateBack (walIndex T iv) with
      | none => simp
      | some wal =>
        have hhead := parse_head_of_seek hseek
        simp only
        split
        · rename_i e he
          exact absurd he (hhead e)
        · constructor
          · rintro ⟨⟩
            exact ⟨⟨c,rfl,hlink⟩,wal,rfl,rfl⟩
          · rintro ⟨-,w,⟨⟩,rfl⟩
            rfl
    · simp only [if_neg hlink]
      simp [hlink]

theorem mem_versions_setBack (hT : 0 < T) (hseek : d.seekSnapshot T = .ok v)
    (wal : IndexedLog WALEntry) : v ∈ (d.setBack T v wal).versions := by
  obtain ⟨hvT,hmem⟩ := startSnapshot_le hT ((startSnapshot_eq_ok hT).mpr hseek)
  obtain ⟨p,hp,rfl⟩ := List.mem_map.mp hmem
  exact List.mem_map_of_mem (mem_filter.mpr ⟨hp,decide_eq_true hvT⟩)

theorem loadTarget_setBack (hd : d.Sane) (hT : 0 < T) (hl : d.loadTarget T = .ok (v,t))
    (hversion : t.version = T) {wal : IndexedLog WALEntry}
    (hcut : d.wal.truncateBack (walIndex T t.initialVersion) = some wal) :
    (d.setBack T v wal).loadTarget 0 = .ok (v,t) ∧ wal.lastIndex = t.position := by
  obtain ⟨t₀,hstart,h₀,hc⟩ := loadTarget_eq_ok.mp hl
  obtain ⟨n,hcaught⟩ : ∃ n, CaughtUp t₀ t n := by
    obtain ⟨t₁,n,h₁,hn⟩ := System.caughtUp_loadTarget hd hl
    cases h₀.symm.trans h₁
    exact ⟨n,hn⟩
  have ht₀ := hd.loadMultiTree h₀
  obtain ⟨hvT,hmem⟩ := startSnapshot_le hT hstart
  obtain ⟨hrange,hlast,-⟩ := IndexedLog.truncateBack_eq_some hcut
  have hposition : wal.lastIndex = t.position := by
    rw [hlast,position,entriesAt,if_neg (by omega),hversion]
  have hl₀ : (d.setBack T v wal).loadMultiTree v = .ok t₀ := by
    have hlookup : (d.setBack T v wal).snapshots.lookup v = d.snapshots.lookup v :=
      @lookup_filter v d.snapshots (fun w => w ≤ T) (decide_eq_true hvT)
    rw [loadMultiTree,hlookup]
    exact h₀
  refine ⟨loadTarget_eq_ok.mpr ⟨t₀,by simp [startSnapshot,setBack],hl₀,?_⟩,hposition⟩
  rw [if_pos (.inl rfl)]
  rw [if_congr (or_iff_right (by omega)) rfl rfl] at hc
  split at hc
  · rename_i hlt
    rw [hcaught.initialVersion] at hcut
    refine catchupWAL_truncateBack ht₀ hT hc ?_ hcut
    rintro rfl
    omega
  · subst hc
    exact (catchupWAL_eq_ok ht₀).mpr (.inl ⟨hposition.le,rfl⟩)

end Disk

namespace System

variable {s : System} {db : DB} {d : Disk} {o : Options}

/-- `Load` with `LoadForOverwriting` returns nil; every plain `Load` after it opens the target
version as it was, and the next `Commit` returns the next version, whatever the goroutines do. -/
def RollsBack (s : System) (o : Options) (info : CommitInfo) : Prop :=
  ∃ db₁ d₁, DB.load { o with loadForOverwriting := true } s.disk = (.ok db₁,d₁) ∧
    ∀ o₂ : Options, o₂.validate = none → o₂.readOnly = false → o₂.loadForOverwriting = false →
      o₂.targetVersion = 0 → ∃ s₂ db₂, System.step { s with disk := d₁ } (.load o₂) = some s₂ ∧
        s₂.db = some db₂ ∧ db₂.mtree.version = o.targetVersion.toNat ∧
        db₂.mtree.lastCommitInfo = info ∧ ∃ s₃, s₂.step (.call .commit) = some s₃ ∧
          Inevitably (Moves System.step (Clean [] False))
            (Returned .commit (· = .version (o.targetVersion.toNat+1))) s₃

/-- What a plain `Load` of a version says about one that rolls back to it. -/
theorem load_overwriting (hro : o.readOnly = false) (hover : o.loadForOverwriting = false)
    (hT : 0 < o.targetVersion.toNat) (hload : DB.load o s.disk = (.ok db,d))
    (hversion : db.mtree.version = o.targetVersion.toNat) :
    ∃ v, d.seekSnapshot o.targetVersion.toNat = .ok v ∧
      d.loadTarget o.targetVersion.toNat = .ok (v,db.mtree) ∧
      ∀ x d', DB.load { o with loadForOverwriting := true } s.disk = (.ok x,d') ↔
        d.overwrite o.targetVersion.toNat v db.mtree.initialVersion = (d',none) ∧
          x = { opts := { o with loadForOverwriting := true }, mtree := db.mtree } := by
  obtain ⟨d₁,v,mtree,hprep,hl,hroll,hopen⟩ := load_eq_ok hload
  obtain rfl : d₁ = d := by
    simp only [DB.rollback,hover,Bool.false_and,Bool.false_eq_true,if_false] at hroll
    exact congrArg Prod.fst hroll
  have hmtree : mtree.version = o.targetVersion.toNat := by
    rw [← hversion,(touches_openWith hopen).1.mtree.version_eq]
  have hne : mtree.version ≠ 0 := by omega
  have hopenAs : ∀ o : Options, DB.openWith o mtree = .ok { opts := o, mtree } := by
    intro o
    simp only [DB.openWith,hne,false_and,and_false,if_false]
  obtain rfl : db = { opts := o, mtree } := Except.ok.inj (hopen.symm.trans (hopenAs o))
  have hprep' : DB.prepare { o with loadForOverwriting := true } s.disk = (d₁,none) := by
    rw [← hprep]
    simp [DB.prepare,Options.validate,hro]
  obtain ⟨t₀,hstart,-⟩ := Disk.loadTarget_eq_ok.mp hl
  refine ⟨v,(Disk.startSnapshot_eq_ok hT).mp hstart,hl,fun x d' => ?_⟩
  simp only [DB.load,hprep',hl,DB.rollback,hT,decide_true,Bool.and_self,if_true,hopenAs]
  cases d₁.overwrite o.targetVersion.toNat v mtree.initialVersion with
  | mk d₂ e => cases e <;> simp [eq_comm,and_comm]

/-- In every directory whose snapshots have sane versions, a version that `Load` opens can be rolled
back to exactly if the link can be set to its snapshot and its own entry is in the log. -/
theorem rolls_back_iff (hs : s.disk.Sane) (hnone : s.db = none) (hp : s.pruner = none)
    (hro : o.readOnly = false) (hover : o.loadForOverwriting = false)
    (hT : 0 < o.targetVersion.toNat) (hload : DB.load o s.disk = (.ok db,d))
    (hversion : db.mtree.version = o.targetVersion.toNat)
    (hmax : ∀ e ∈ db.mtree.trees, e.tree.version.toNat ≠ maxUint32) :
    s.RollsBack o db.mtree.lastCommitInfo ↔
      (∃ v, d.seekSnapshot o.targetVersion.toNat = .ok v ∧ d.CanLink v) ∧
        d.wal.InRange (walIndex o.targetVersion.toNat db.mtree.initialVersion) := by
  obtain ⟨v,hseek,hl,hiff⟩ := load_overwriting hro hover hT hload hversion
  constructor
  · rintro ⟨db₁,d₁,hload₁,-⟩
    obtain ⟨hlink,wal,hcut,-⟩ := (Disk.overwrite_eq_ok hseek).mp ((hiff db₁ d₁).mp hload₁).1
    exact ⟨⟨v,hseek,hlink⟩,(IndexedLog.truncateBack_eq_some hcut).1⟩
  · rintro ⟨⟨v₁,hseek₁,hlink⟩,hrange⟩
    cases hseek.symm.trans hseek₁
    obtain ⟨wal,hcut⟩ : ∃ wal,
        d.wal.truncateBack (walIndex o.targetVersion.toNat db.mtree.initialVersion) = some wal :=
      ⟨_,if_pos hrange⟩
    have hd : d.Sane := by
      have := sane_load hs o
      rwa [hload] at this
    obtain ⟨htarget,hlast⟩ := Disk.loadTarget_setBack hd hT hl hversion hcut
    have hload₁ := (hiff _ _).mpr ⟨(Disk.overwrite_eq_ok hseek).mpr ⟨hlink,wal,hcut,rfl⟩,rfl⟩
    refine ⟨_,_,hload₁,fun o₂ ho₂ hro₂ hover₂ hT₂ => ?_⟩
    -- The snapshot that the link leads to is not among those that are removed.
    have hcurrent : ∃ c ∈ (d.setBack o.targetVersion.toNat v wal).versions,
        (d.setBack o.targetVersion.toNat v wal).current = some c :=
      ⟨v,Disk.mem_versions_setBack hT hseek wal,rfl⟩
    have hload₂ := DB.load_of_loadTarget ho₂ hover₂ hcurrent (by rw [hT₂]; exact htarget) (by omega)
    have hstep := step_load (s := { s with disk := d.setBack o.targetVersion.toNat v wal }) hnone hp
      hload₂
    have hok : System.Ok { s with disk := d.setBack o.targetVersion.toNat v wal } := by
      have := sane_load hs { o with loadForOverwriting := true }
      rw [hload₁] at this
      exact ⟨this,by simp [hnone]⟩
    have hcommit := commit_at_end (hok.step hstep) rfl rfl hro₂ rfl rfl
      (by rw [hro₂]; exact hlast) hmax
    have hnext : nextVersion db.mtree.version db.mtree.initialVersion =
        o.targetVersion.toNat+1 := by
      rw [nextVersion,if_neg (by omega),hversion]
    rw [← hnext]
    exact ⟨_,_,hstep,rfl,hversion,rfl,hcommit⟩

/-- Two versions, and a snapshot of the first that was delivered with the second. -/
def prunedActs : List Act :=
  [.load { createIfMissing := true, snapshotInterval := 1, asyncCommitBuffer := -1 }] ++
    commitActs ++ List.replicate 6 (.rewrite true) ++
    .call .commit::List.replicate 5 (.proceed none) ++ [.prune,.prune,.prune] ++
    [.call .close,.rewrite false,.proceed none]

/-- After the pruning the log starts right behind the first snapshot, whose version opens and
cannot be rolled back to. -/
theorem rollback_out_of_range : ∃ (s : System) (o : Options) (db : DB) (d d' : Disk),
    Run System.step (System.Regular []) {} s ∧ s.db = none ∧ s.pruner = none ∧
      o.readOnly = false ∧ o.loadForOverwriting = false ∧ o.targetVersion = 1 ∧
      DB.load o s.disk = (.ok db,d) ∧ db.mtree.version = 1 ∧
      DB.load { o with loadForOverwriting := true } s.disk =
        (.error "fail to truncate wal logs: out of range",d') ∧
      ¬s.RollsBack o db.mtree.lastCommitInfo := by
  have hex : (exec System.step (System.Regular []) prunedActs {}).any (fun s =>
      (s.db.isNone ∧ s.pruner.isNone) ∧
        (DB.load { targetVersion := 1 } s.disk).1.toOption.any (fun db => db.mtree.version = 1) ∧
        (DB.load { targetVersion := 1, loadForOverwriting := true } s.disk).1 =
          .error "fail to truncate wal logs: out of range") = true := by
    decide +kernel
  obtain ⟨s,hrun,hex⟩ := Run.exists_of_exec hex
  obtain ⟨⟨hnone,hp⟩,hload,herr⟩ := of_decide_eq_true hex
  obtain ⟨db,hdb,hversion⟩ := (Option.any_eq_true ..).mp hload
  have hload : DB.load { targetVersion := 1 } s.disk = (.ok db,_) :=
    Prod.ext (ok_of_toOption hdb) rfl
  have herr : DB.load { targetVersion := 1, loadForOverwriting := true } s.disk = (.error _,_) :=
    Prod.ext herr rfl
  refine ⟨s,{ targetVersion := 1 },db,_,_,hrun,isNone_iff_eq_none.mp hnone,
    isNone_iff_eq_none.mp hp,rfl,rfl,rfl,hload,of_decide_eq_true hversion,herr,?_⟩
  rintro ⟨db₁,d₁,hload₁,-⟩
  cases herr.symm.trans hload₁

/-- Two versions in the log. -/
theorem rolls_back_to_one : ∃ (s : System) (o : Options) (db : DB) (d : Disk), s.Reachable ∧
    o.targetVersion = 1 ∧ DB.load o s.disk = (.ok db,d) ∧ d.wal.lastIndex = 2 ∧
      s.RollsBack o db.mtree.lastCommitInfo := by
  have hex : (exec System.step (System.Regular [])
      ([.load { createIfMissing := true, asyncCommitBuffer := -1 }] ++ commitActs ++ commitActs ++
        [.call .close]) {}).any (fun s => (s.db.isNone ∧ s.pruner.isNone) ∧
      (DB.load { targetVersion := 1 } s.disk).1.toOption.any (fun db => db.mtree.version = 1 ∧
        (∀ e ∈ db.mtree.trees, e.tree.version.toNat ≠ maxUint32) ∧
        db.mtree.initialVersion = 0) ∧
      (DB.load { targetVersion := 1 } s.disk).2.seekSnapshot 1 = .ok 0 ∧
      (DB.load { targetVersion := 1 } s.disk).2.current = some 0 ∧
      (DB.load { targetVersion := 1 } s.disk).2.wal.base = 0 ∧
      (DB.load { targetVersion := 1 } s.disk).2.wal.lastIndex = 2) = true := by
    decide +kernel
  obtain ⟨s,hrun,hex⟩ := Run.exists_of_exec hex
  obtain ⟨⟨hnone,hp⟩,hload,hseek,hcurrent,hbase,hlast⟩ := of_decide_eq_true hex
  obtain ⟨db,hdb,hex⟩ := (Option.any_eq_true ..).mp hload
  obtain ⟨hversion,hmax,hiv⟩ := of_decide_eq_true hex
  have hload : DB.load { targetVersion := 1 } s.disk = (.ok db,_) :=
    Prod.ext (ok_of_toOption hdb) rfl
  have hs := reachable_of_run hrun
  refine ⟨s,{ targetVersion := 1 },db,_,hs,rfl,hload,hlast,?_⟩
  refine (rolls_back_iff hs.ok.disk (isNone_iff_eq_none.mp hnone) (isNone_iff_eq_none.mp hp)
    rfl rfl (by decide) hload hversion hmax).mpr ⟨⟨0,hseek,0,hcurrent,.inl rfl⟩,?_⟩
  rw [hiv]
  exact ⟨by rw [hbase]; decide,by rw [hlast]; decide⟩

end System

end Memiavl
