import Memiavl.FaithfulLoad
import Memiavl.WalFailure

/-! A `Commit` of a faithful system returns the version it has saved, whatever the goroutines do,
if the database is at its latest version or no snapshot is delivered to it. -/
namespace Memiavl

open Option Transition

/-- The version that a running `Commit` has saved. -/
def Phase.committing? : Phase → Option ℕ
  | .sending v _ | .writing v _ | .checkAsyncCommit v | .checkRewrite v _ | .waiting v _ _
  | .pruning v _ => some v
  | _ => none

def Phase.left : Phase → ℕ
  | .sending _ _ | .writing _ _ => 5
  | .checkAsyncCommit _ => 4
  | .checkRewrite _ _ => 3
  | .waiting _ _ _ => 2
  | .pruning _ _ => 1
  | _ => 0

/-- The goroutine of the log is only blocked at its receive. -/
theorem AsyncCommit.exists_step_busy {c : AsyncCommit} (hc : c.Ok) (halive : ¬c.writer.Dead)
    (hbusy : c.writer ≠ .receiving ∨ c.queue ≠ []) (wal : IndexedLog WALEntry) :
    ∃ p, c.step wal none = some p := by
  by_cases hne : c.flight = []
  · rw [flight_of_alive halive,List.append_eq_nil_iff] at hne
    have hw := hbusy.resolve_right (not_not.mpr hne.2)
    cases hwriter : c.writer with
    | receiving => exact absurd hwriter hw
    | counting item | reading entries => exact ⟨_,by simp only [step,hwriter]; rfl⟩
    | collecting n result =>
      have hn := hc.counted _ _ hwriter
      rw [hne.2,List.length_nil,Nat.le_zero] at hn
      subst hn
      exact ⟨_,by simp only [step,hwriter]; rfl⟩
    | writing batch =>
      simp only [step,hwriter]
      split <;> exact ⟨_,rfl⟩
    | failing err | quit =>
      rw [hwriter] at halive
      exact absurd trivial halive
  · exact exists_step hc hne wal

/-- When the channel has no room, the goroutine has work. -/
theorem AsyncCommit.exists_step_full {c : AsyncCommit} {entry : WalEntry} (hc : c.Ok)
    (halive : ¬c.writer.Dead) (hsend : c.send entry = none) (wal : IndexedLog WALEntry) :
    ∃ p, c.step wal none = some p := by
  refine exists_step_busy hc halive (or_iff_not_imp_right.mpr fun hq hw => ?_) wal
  rw [send,not_not.mp hq] at hsend
  split_ifs at hsend with hroom hdirect
  exact hdirect ⟨by simpa using hroom,hw⟩

namespace System

variable {s s' : System} {h : History} {leftover : List (ℕ × SnapshotDir)} {db db' : DB} {v : ℕ}

/-- The goroutine that rewrites a snapshot takes its last step. -/
def Delivers (s : System) (a : Act) : Prop :=
  (∃ ok, a = .rewrite ok) ∧ ∃ db ∈ s.db, ∃ r ∈ db.rewriter, ∃ t, r.stage = .catching t

/-- No snapshot was delivered since the database was opened. -/
structure Undelivered (s : System) : Prop where
  phase : ∀ db ∈ s.db, ¬db.phase.Switching
  stage : ∀ db ∈ s.db, ∀ r ∈ db.rewriter, ∀ t, r.stage ≠ .sending (.ok t)
  pruner : s.pruner = none

theorem Undelivered.of_some (hdb : s.db = some db) (hp : s.pruner = none)
    (hphase : ¬db.phase.Switching)
    (hstage : ∀ r ∈ db.rewriter, ∀ t, r.stage ≠ .sending (.ok t)) : s.Undelivered := by
  refine ⟨?_,?_,hp⟩ <;> rw [hdb] <;> rintro x ⟨⟩
  · exact hphase
  · exact hstage

theorem Undelivered.finishCommit (hp : s.pruner = none)
    (hstage : ∀ r ∈ db.rewriter, ∀ t, r.stage ≠ .sending (.ok t)) (v : ℕ) (err : Option String) :
    (s.finishCommit db v err).Undelivered := by
  have hf := finishes_finishCommit s db v err
  generalize s.finishCommit db v err = s' at hf ⊢
  cases hf with
  | failed e | kept => exact .of_some rfl hp id hstage
  | clones _ _ =>
    refine .of_some rfl hp id ?_
    rintro r ⟨⟩ t
    simp

theorem Undelivered.starts (hs : s.Undelivered) (hdb : s.db = some db) {c : Call}
    (hstart : Starts s db c s') : s'.Undelivered := by
  have hp := hs.pruner
  have hstage := hs.stage db hdb
  cases hstart with
  | refused r | initialised | saveFailed | rewrites | sends | writes | awaits =>
    exact .of_some rfl hp id hstage
  | edited he =>
    rw [← (DB.touches_edit he).rewriter] at hstage
    exact .of_some rfl hp id hstage
  | clones =>
    refine .of_some rfl hp id ?_
    rintro r ⟨⟩ t
    simp
  | closes _ hcall => exact .of_some rfl hp (by rcases hcall with ⟨-,rfl⟩ | ⟨-,rfl⟩ <;> exact id) hstage
  | ends => exact ⟨by rintro x ⟨⟩,by rintro x ⟨⟩,hp⟩

theorem Undelivered.proceeds (hs : s.Undelivered) (hdb : s.db = some db) {f : Option ℕ}
    (hp : Proceeds s db f s') : s'.Undelivered := by
  have hpruner := hs.pruner
  have hstage := hs.stage db hdb
  have hphase := hs.phase db hdb
  cases hp with
  | sent | written | checked | quit | awaits | broke | outOfOrder | waited =>
    exact .of_some rfl hpruner id hstage
  | passed => exact .finishCommit hpruner hstage _ _
  | notRewritten | dropped => exact .finishCommit hpruner (by simp) _ _
  | received _ hr hsending => exact absurd hsending (hstage _ hr _)
  | notCaughtUp hwaiting | notReplayed hwaiting | switched hwaiting | prunes hwaiting =>
    exact absurd (by rw [hwaiting]; trivial) hphase
  | closed | ends => exact ⟨by rintro x ⟨⟩,by rintro x ⟨⟩,hpruner⟩

theorem Undelivered.step (hs : s.Undelivered) {a : Act} (ha : ¬s.Delivers a)
    (hstep : s.step a = some s') : s'.Undelivered := by
  cases turns_of_step hstep with
  | loaded _ _ hload =>
    obtain ⟨_,_,_,-,-,-,hopen⟩ := load_eq_ok hload
    obtain ⟨htouch,hphase⟩ := touches_openWith hopen
    exact .of_some rfl hs.pruner (by rw [hphase]; exact id) (by simp [htouch.rewriter])
  | notLoaded hnone => exact ⟨by simp [hnone],by simp [hnone],hs.pruner⟩
  | starts hdb _ hstart => exact hs.starts hdb hstart
  | proceeds hdb hp => exact hs.proceeds hdb hp
  | @writes f db c c' wal hdb => exact .of_some rfl hs.pruner (hs.phase db hdb) (hs.stage db hdb)
  | @rewrites ok db r r' d hdb hr hd =>
    refine .of_some rfl hs.pruner (hs.phase db hdb) ?_
    rintro x ⟨⟩ t
    cases hd with
    | caughtUp hstage => exact absurd ⟨⟨ok,rfl⟩,db,hdb,r,hr,_,hstage⟩ ha
    | wrote | cancelled | renamed | linked | switched | failed | notLoaded | loaded => simp
  | prunes hp =>
    rw [hs.pruner] at hp
    cases hp
  | crashed | interrupted => exact ⟨by simp [endsWith],by simp [endsWith],rfl⟩

theorem committing_of_some (hv : db.phase.committing? = some v) : db.phase.Committing := by
  cases hphase : db.phase <;> rw [hphase] at hv <;> trivial

theorem returned_finishCommit_version (s : System) (db : DB) (v : ℕ) (err : Option String) :
    (s.finishCommit db v err).Returned .commit fun r => r = .version v ∨ r.IsError := by
  have hf := finishes_finishCommit s db v err
  generalize s.finishCommit db v err = s' at hf ⊢
  cases hf with
  | failed e => exact returned_ret (.inr trivial)
  | kept | clones => exact returned_ret (.inl rfl)

/-- `Commit` returns, or has fewer steps left. -/
theorem proceeds_next {f : Option ℕ} (hv : db.phase.committing? = some v)
    (hp : Proceeds s db f s') :
    s'.Returned .commit (fun r => r = .version v ∨ r.IsError) ∨
      ∃ db', s'.db = some db' ∧ db'.phase.committing? = some v ∧ db'.phase.left < db.phase.left ∧
        (db'.mtree = db.mtree ∨ ∃ err, db'.phase = .pruning v err) := by
  have hleft : ∀ {phase : Phase}, db.phase = phase → phase.committing? = some v := by
    rintro phase rfl
    exact hv
  cases hp with
  | broke | outOfOrder => exact .inl (returned_ret (.inr trivial))
  | sent hphase | written hphase | checked hphase | quit _ hphase | received hphase =>
    obtain rfl := some.inj (hleft hphase)
    exact .inr ⟨_,rfl,rfl,by rw [hphase]; exact Nat.lt_succ_self _,.inl rfl⟩
  | passed hphase | notRewritten hphase | dropped hphase | notCaughtUp hphase | notReplayed hphase
  | prunes hphase =>
    obtain rfl := some.inj (hleft hphase)
    exact .inl (returned_finishCommit_version _ _ _ _)
  | switched hphase =>
    obtain rfl := some.inj (hleft hphase)
    exact .inr ⟨_,rfl,rfl,by rw [hphase]; exact Nat.lt_succ_self _,.inr ⟨_,rfl⟩⟩
  | waited hphase | awaits hphase | closed hphase | ends hphase => cases hleft hphase

/-- A step other than the start of a call adds nothing to the history. -/
theorem goes_internal (hok : s.Ok) (hs : s.Faithful h leftover) {a : Act} (ha : a.Internal)
    (hr : System.Regular leftover s a) (hstep : s.step a = some s') : s.GoesTo h leftover h s' := by
  cases turns_of_step hstep with
  | loaded | notLoaded | starts | crashed | interrupted => exact ha.elim
  | proceeds hdb hp =>
    obtain rfl := hr
    exact goes_proceeds hok hs hdb hp
  | writes hdb hc hw =>
    obtain rfl := hr
    exact goes_writes hok hs hdb hc hw
  | rewrites hdb hrew hd => exact goes_rewrites hs hdb hrew (hr _ hdb _ hrew) hd
  | prunes hp hd => exact goes_prunes hs hp hd

/-- Steps of a call and of the goroutines, where no write fails; with `quiet` no snapshot is
delivered. -/
def Clean (leftover : List (ℕ × SnapshotDir)) (quiet : Prop) (s : System) (a : Act) : Prop :=
  a.Internal ∧ System.Regular leftover s a ∧ (quiet → ¬s.Delivers a)

/-- A `Commit` of version `v`, called in `s₀`, is running and is not going to wait for an entry
that never comes. -/
structure Commits (s₀ : System) (h₀ : History) (leftover : List (ℕ × SnapshotDir)) (h : History)
    (quiet : Prop) (v : ℕ) (s : System) : Prop where
  ok : s.Ok
  goes : s₀.GoesTo h₀ leftover h s
  started : s₀.trace.length < s.trace.length
  db : ∃ db, s.db = some db ∧ db.phase.committing? = some v ∧
    (quiet ∧ s.Undelivered ∨ db.mtree.position = h.entries.length)

/-- `Commit`, called in `s₀`, has returned version `v`. -/
structure Committed (s₀ : System) (h₀ : History) (leftover : List (ℕ × SnapshotDir)) (h : History)
    (v : ℕ) (s : System) : Prop where
  ok : s.Ok
  goes : s₀.GoesTo h₀ leftover h s
  returned : s.Returned .commit (· = .version v)

def commitWork (s : System) : ℕ ×ₗ (ℕ ×ₗ ℕ) :=
  toLex ((s.db.map fun db => db.phase.left).getD 0,s.work)

variable {quiet : Prop} {s₀ : System} {h₀ : History}

/-- What `Commit` returns is a version of the history. -/
theorem committed_of_returned (hok : s.Ok) (hg : s₀.GoesTo h₀ leftover h s)
    (hstarted : s₀.trace.length < s.trace.length)
    (hr : s.Returned .commit fun r => r = .version v ∨ r.IsError) :
    Committed s₀ h₀ leftover h v s := by
  obtain ⟨hidle,r,view,hlast,hr⟩ := hr
  refine ⟨hok,hg,hidle,r,view,hlast,hr.resolve_right fun herr => ?_⟩
  obtain ⟨events,htrace,hevents⟩ := hg.trace
  have hne : events ≠ [] := by
    rintro rfl
    rw [htrace,List.append_nil] at hstarted
    exact lt_irrefl _ hstarted
  rw [htrace,List.getLast?_append_of_ne_nil _ hne] at hlast
  have htells := hevents _ (List.mem_of_getLast? hlast)
  cases r with
  | error e => exact htells
  | done | version => exact herr

theorem GoesTo.length_le {h' : History} (hg : s.GoesTo h leftover h' s') :
    s.trace.length ≤ s'.trace.length := by
  obtain ⟨events,htrace,-⟩ := hg.trace
  rw [htrace,List.length_append]
  exact Nat.le_add_right ..

theorem Commits.background (hs : Commits s₀ h₀ leftover h quiet v s) {a : Act}
    (ha : Clean leftover quiet s a) (hbg : a.Background) (hstep : s.step a = some s') :
    Commits s₀ h₀ leftover h quiet v s' ∧ s'.commitWork < s.commitWork := by
  obtain ⟨hint,hreg,hquiet⟩ := ha
  obtain ⟨db,hdb,hv,hcond⟩ := hs.db
  have hg := goes_internal hs.ok hs.goes.faithful hint hreg hstep
  obtain ⟨db',hdb',hstay⟩ := background_db hs.ok hbg hdb hstep
  refine ⟨⟨hs.ok.step hstep,hs.goes.trans hg,hs.started.trans_le hg.length_le,db',hdb',
    by rw [hstay.phase,hv],?_⟩,?_⟩
  · rw [hstay.mtree]
    exact hcond.imp_left fun ⟨hq,hund⟩ => ⟨hq,hund.step (hquiet hq) hstep⟩
  · rw [commitWork,commitWork,hdb,hdb',map_some,map_some,hstay.phase]
    exact Prod.Lex.right _ (work_lt hbg hstep)

/-- A clean step leads to the end of the `Commit` or keeps it running, with less work left. -/
theorem Commits.step (hs : Commits s₀ h₀ leftover h quiet v s) {a : Act}
    (ha : Clean leftover quiet s a) (hstep : s.step a = some s') :
    Committed s₀ h₀ leftover h v s' ∨
      Commits s₀ h₀ leftover h quiet v s' ∧ s'.commitWork < s.commitWork := by
  cases a with
  | load o | call c | crash keep | interrupt w n keep => exact ha.1.elim
  | write f | rewrite ok | prune => exact .inr (hs.background ha trivial hstep)
  | proceed f =>
    obtain ⟨hint,hreg,hquiet⟩ := ha
    obtain ⟨db,hdb,hv,hcond⟩ := hs.db
    have hg := goes_internal hs.ok hs.goes.faithful hint hreg hstep
    have hok := hs.ok.step hstep
    have hgoes := hs.goes.trans hg
    have hstarted := hs.started.trans_le hg.length_le
    have hstep' := hstep
    rw [step_proceed hdb] at hstep'
    rcases proceeds_next hv (proceeds_of_proceed hstep') with hret | ⟨db',hdb',hv',hleft,hm⟩
    · exact .inl (committed_of_returned hok hgoes hstarted hret)
    · refine .inr ⟨⟨hok,hgoes,hstarted,db',hdb',hv',?_⟩,?_⟩
      · rcases hcond with ⟨hq,hund⟩ | hlatest
        · exact .inl ⟨hq,hund.step (hquiet hq) hstep⟩
        · rcases hm with hm | ⟨err,hphase⟩
          · exact .inr (by rw [hm]; exact hlatest)
          · exact .inr ((hgoes.faithful.db db' hdb').pruning _ _ hphase).1
      · rw [commitWork,commitWork,hdb,hdb',map_some,map_some]
        exact Prod.Lex.left _ _ hleft

section
variable (hs : Commits s₀ h₀ leftover h quiet v s)
include hs

/-- A `Commit` that waits for the log is not blocked: the goroutine has what it waits for. -/
theorem Commits.exists_write (hdb : s.db = some db) {err : Option String} {t : MultiTree}
    (hphase : db.phase = .waiting v err t)
    (hguard : db.committedVersion s.disk.wal ≠ db.mtree.version) :
    ∃ s', s.step (.write none) = some s' := by
  obtain ⟨db₁,hdb₁,-,hcond⟩ := hs.db
  cases hdb.symm.trans hdb₁
  have hlatest : db.mtree.position = h.entries.length := by
    rcases hcond with ⟨-,hund⟩ | hlatest
    · exact absurd (by rw [hphase]; trivial) (hund.phase db hdb)
    · exact hlatest
  have hwaits : Waits h.entries.length s := ⟨hs.ok,db,v,err,t,hdb,hphase,hlatest⟩
  have hcarries := hs.goes.faithful.flight
  have hcomplete := hcarries.complete
  refine hwaits.exists_move ⟨hcarries.le,by omega⟩ fun hlast => hguard ?_
  obtain ⟨x,hx,hcaught⟩ := hwaits.caught_iff.mpr hlast
  cases hdb.symm.trans hx
  exact hcaught

/-- A running `Commit` or one of the goroutines can take a clean step. -/
theorem Commits.exists_step : ∃ a s', Clean leftover quiet s a ∧ s.step a = some s' := by
  obtain ⟨db,hdb,hv,-⟩ := hs.db
  have ht := hs.goes.faithful.db db hdb
  have hp := (hs.ok.db db hdb).phase
  rw [DB.PhaseOk] at hp
  have hproceed : (∃ s', s.proceed db none = some s') →
      ∃ a s', Clean leftover quiet s a ∧ s.step a = some s' := by
    rintro ⟨s',hs'⟩
    exact ⟨.proceed none,s',⟨trivial,rfl,fun _ => by simp [Delivers]⟩,by rw [step_proceed hdb,hs']⟩
  have hwrite : (∃ s', s.step (.write none) = some s') →
      ∃ a s', Clean leftover quiet s a ∧ s.step a = some s' := by
    rintro ⟨s',hs'⟩
    exact ⟨.write none,s',⟨trivial,rfl,fun _ => by simp [Delivers]⟩,hs'⟩
  cases hphase : db.phase with
  | idle | waitQuit | closeQuit | closeRewrite =>
    rw [hphase] at hv
    cases hv
  | sending w e =>
    rw [hphase] at hp
    obtain ⟨c,hc⟩ := isSome_iff_exists.mp hp.2.2
    cases hsend : c.send e with
    | some c' =>
      exact hproceed ⟨_,by simp only [proceed,hphase,hc,hsend,bind_eq_bind,bind_some]; rfl⟩
    | none =>
      obtain ⟨p,hp⟩ := AsyncCommit.exists_step_full ((hs.ok.db db hdb).base.chan c hc).1
        (alive_of_open ht hp.1 hc) hsend s.disk.wal
      exact hwrite (step_write hdb hc hp)
  | writing w e | checkAsyncCommit w =>
    refine hproceed ?_
    simp only [proceed,hphase]
    split <;> exact ⟨_,rfl⟩
  | checkRewrite w err => exact hproceed ⟨_,by simp only [proceed,hphase]; rfl⟩
  | waiting w err t =>
    rw [hphase] at hv
    obtain rfl := some.inj hv
    by_cases hguard : db.committedVersion s.disk.wal = db.mtree.version
    · exact hproceed ⟨_,by simp only [proceed,hphase,if_pos hguard]; rfl⟩
    · exact hwrite (hs.exists_write hdb hphase hguard)
  | pruning w err =>
    cases hpruner : s.pruner with
    | none => exact hproceed ⟨_,by simp only [proceed,hphase,hpruner]; rfl⟩
    | some p =>
      exact ⟨.prune,_,⟨trivial,trivial,fun _ => by simp [Delivers]⟩,by
        simp only [System.step,hpruner,bind_eq_bind,bind_some]; rfl⟩

/-- A running `Commit` returns its version in every schedule of clean steps. -/
theorem Commits.inevitably : Inevitably
    (Moves System.step (Clean leftover quiet)) (Committed s₀ h₀ leftover h v) s := by
  refine Inevitably.of_rank wellFounded_lt commitWork
    (A := Commits s₀ h₀ leftover h quiet v) ?_ ?_ hs
  · rintro s t hs ⟨a,ha,hstep⟩
    exact hs.step ha hstep
  · intro s hs
    obtain ⟨a,t,ha,hstep⟩ := hs.exists_step
    exact ⟨t,a,ha,hstep⟩

end

/-- `Commit` of the latest version, or while no snapshot is delivered, returns the next version in
every schedule of clean steps. -/
theorem commit_inevitably (hok : s.Ok) (hs : s.Faithful h leftover) (hdb : s.db = some db)
    (hidle : db.phase = .idle) (hr : db.Regular s.disk .commit)
    (hcond : quiet ∧ s.Undelivered ∨ db.mtree.position = h.entries.length) :
    ∃ s' h' e, s.step (.call .commit) = some s' ∧ s'.trace = s.trace ++ [.committed e] ∧
      e.index = db.mtree.position+1 ∧ h'.Tells (.committed e) ∧ Inevitably
        (Moves System.step (Clean leftover quiet))
        (Committed s h leftover h' (nextVersion db.mtree.version db.mtree.initialVersion)) s' := by
  have hstart := starts_startCall s db .commit
  have hstep := step_call hdb hidle .commit
  obtain ⟨h',db',v,e,hg,hdb',hphase,rfl,htrace,hindex,hlatest⟩ :=
    goes_commit hok hs hdb hidle hr hstart
  refine ⟨_,h',e,hstep,htrace,hindex,?_,
    Commits.inevitably ⟨hok.step hstep,hg,by simp [htrace],db',hdb',?_,?_⟩⟩
  · obtain ⟨events,hevents,htells⟩ := hg.trace
    obtain rfl := List.append_cancel_left (hevents.symm.trans htrace)
    exact htells _ List.mem_cons_self
  · rcases hphase with hphase | hphase <;> rw [hphase] <;> rfl
  · exact hcond.imp (fun ⟨hq,hund⟩ => ⟨hq,hund.step (by simp [Delivers]) hstep⟩) hlatest

end System

end Memiavl
