import Memiavl.FaithfulCalls

/-! Calls that go on, the goroutines and `Load` keep the system faithful as well, so whole runs
do, and every `Commit` returns the version that it has added to the history. -/
namespace Memiavl

open MultiTree List

namespace System

variable {s s' : System} {h : History} {leftover : List (ℕ × SnapshotDir)} {db db' : DB}

variable {wal : IndexedLog WALEntry} {e : WalEntry} {d : Disk} {c : AsyncCommit} {v : ℕ}
  {p : Pruner}

theorem Faithful.setWal (hs : s.Faithful h leftover) (hdb : s.db = some db)
    (hcarries : h.Carries wal db'.flight)
    (hcovered : ∀ v ∈ s.disk.versions, wal.base ≤ entriesAt v h.start.initialVersion)
    (ht : db'.Tracks h { s.disk with wal }) (hposition : db'.mtree.position = db.mtree.position)
    (hrewriter : db'.rewriter = db.rewriter) :
    Faithful { s with disk := { s.disk with wal }, db := some db' } h leftover := by
  refine ⟨hs.valid,hs.small,hs.disk.setWal hcarries.logs hcovered,hcarries,?_,?_,hs.leftover⟩
  · rintro x ⟨⟩
    exact ht
  · intro p hp
    have hpr := hs.pruner p hp
    refine ⟨?_,?_,hpr.removing⟩
    · rintro x ⟨⟩
      exact hposition.trans (hpr.latest db hdb)
    · rintro x ⟨⟩
      rw [hrewriter]
      exact hpr.behind db hdb

theorem carries_writeBatch (hc : h.Carries wal [e]) :
    ∃ wal', wal.writeBatch (writeEntry wal.lastIndex [] e) = some wal' ∧ h.Carries wal' [] ∧
      wal'.base = wal.base := by
  unfold writeEntry
  by_cases hold : e.index ≤ wal.lastIndex
  · rw [if_pos hold]
    refine ⟨wal,by simp [IndexedLog.writeBatch],?_,rfl⟩
    have hskip := @History.Carries.skip h wal [e] [] hc
    rwa [filter_cons_of_neg (by simpa using hold)] at hskip
  · rw [if_neg hold]
    have hes := @History.Carries.batch h wal [e] [] hc (by simpa using hold)
    refine ⟨wal.append [e.data],IndexedLog.writeBatch_eq_some.mpr ⟨hes,rfl⟩,?_,rfl⟩
    exact @History.Carries.write h wal [e] [] hc (by simp) hes

/-- The goroutine that writes the log has not ended as long as its channel is open. -/
theorem alive_of_open (ht : db.Tracks h d) (hopen : db.Open) (hc : db.walChan = some c) :
    ¬c.writer.Dead := by
  intro hdead
  have hclosed := (ht.alive c hc hdead).2
  rw [hopen c hc] at hclosed
  cases hclosed

theorem goes_sent (hok : s.Ok) (hs : s.Faithful h leftover) (hdb : s.db = some db)
    {c' : AsyncCommit} (hphase : db.phase = .sending v e) (hc : db.walChan = some c)
    (hsend : c.send e = some c') : s.GoesTo h leftover h
      (s.put { db with walChan := some c', pendingLog := {}, phase := .checkAsyncCommit v }) := by
  have ht := hs.db db hdb
  have hdbok := hok.db db hdb
  have hopen : db.Open := by
    have hp := hdbok.phase
    rw [DB.PhaseOk,hphase] at hp
    exact hp.1
  have halive := alive_of_open ht hopen hc
  obtain ⟨-,-,-,hflight⟩ := AsyncCommit.flight_send (hdbok.base.chan c hc).1 hsend
  rw [if_neg halive] at hflight
  have halive' : ¬c'.writer.Dead := fun hdead => by
    rw [AsyncCommit.flight_of_dead hdead] at hflight
    simp at hflight
  refine goes_same (hs.setDb hdb (ht.sentOn (by rw [hphase]; trivial) rfl rfl ?_ ht.rewriter
    False.elim (by simp) (by simp)) ?_ rfl (fun r hr => .inl ⟨r,hr,rfl⟩) s.trace)
    (List.append_nil _).symm (by simp) (.of_some hdb rfl trivial rfl)
  · rintro x ⟨⟩ hdead
    exact absurd hdead halive'
  · rw [flight_of_held_nil rfl,DB.flight,hphase,DB.chanFlight,DB.chanFlight,hc]
    exact hflight

/-- A database that writes synchronously has no other entry on its way. -/
theorem walChan_writing (hok : s.Ok) (hdb : s.db = some db) (hphase : db.phase = .writing v e) :
    db.walChan = none := by
  have hp := (hok.db db hdb).phase
  rw [DB.PhaseOk,hphase] at hp
  exact (hok.db db hdb).base.walChan_eq_none hp.2.2

section
variable (hok : s.Ok) (hs : s.Faithful h leftover) (hdb : s.db = some db)
include hok hs hdb

theorem carries_writing (hphase : db.phase = .writing v e) : h.Carries s.disk.wal [e] := by
  have hc := hs.flight
  rw [flight_some hdb,DB.flight,DB.chanFlight,walChan_writing hok hdb hphase,hphase] at hc
  exact hc

theorem goes_written (hphase : db.phase = .writing v e)
    (hw : s.disk.wal.writeBatch (writeEntry s.disk.wal.lastIndex [] e) = some wal) :
    s.GoesTo h leftover h ({ s with disk := { s.disk with wal } }.put
      { db with pendingLog := {}, phase := .checkAsyncCommit v }) := by
  have ht := hs.db db hdb
  have hcarries := carries_writing hok hs hdb hphase
  obtain ⟨wal',hw',hcarries',hbase⟩ := carries_writeBatch hcarries
  obtain rfl : wal' = wal := Option.some.inj (hw'.symm.trans hw)
  have hnone := walChan_writing hok hdb hphase
  have hwal : db.Tracks h { s.disk with wal := wal' } := ht.setWal hbase.le
  refine goes_same (hs.setWal hdb ?_ ?_ ?_ rfl rfl) (List.append_nil _).symm (by simp)
    (.of_some hdb rfl trivial rfl)
  · rw [flight_of_held_nil rfl,DB.chanFlight,hnone]
    exact hcarries'
  · intro w hw
    rw [hbase]
    exact hs.disk.covered w hw
  · exact hwal.sentOn (by rw [hphase]; trivial) rfl rfl ht.alive hwal.rewriter False.elim (by simp)
      (by simp)

theorem goes_switched {err : Option String} {t t₁ mtree : MultiTree}
    (hphase : db.phase = .waiting v err t)
    (hguard : db.committedVersion s.disk.wal = db.mtree.version)
    (hcatch : t.catchupWAL s.disk.wal 0 = .ok t₁)
    (happly : t₁.applyWALEntry db.pendingLog = (mtree,none)) :
    s.GoesTo h leftover h (s.put { db with mtree, phase := .pruning v err }) := by
  have ht := hs.db db hdb
  have hdbok := hok.db db hdb
  have hsaved : JustSaved db.mtree v := by
    have hp := hdbok.phase
    rw [DB.PhaseOk,hphase] at hp
    exact hp.2.1
  have hlast := (DB.committedVersion_eq_iff hdbok.base.sane hsaved s.disk.wal).mp hguard
  have hpending := ht.sent (by rw [hphase]; trivial) (by rw [hphase]; rfl)
  rw [hpending] at happly
  obtain rfl : t₁ = mtree := (Prod.mk.inj happly).1
  have hshows := ht.shows (by rw [hphase]; trivial) hdbok.base.sane
  have hend : db.mtree.position = h.entries.length := by
    have hbound : ∀ e ∈ s.flight, e.index ≤ db.mtree.position := by
      rw [flight_some hdb]
      exact hdbok.flight_bound
    have := hshows.state.1
    rcases hs.flight.lastIndex_or_le hbound with hl | hl <;> omega
  obtain ⟨⟨k,hk⟩,hbase,-⟩ := ht.waiting v err t hphase
  rw [hk.position hs.valid] at hbase
  obtain ⟨t',hcatch',hshows'⟩ := hk.catchupWAL_zero hs.valid hs.disk.logged hbase
  obtain rfl : t' = t₁ := Except.ok.inj (hcatch'.symm.trans hcatch)
  rw [max_eq_right (by have := hk.state.1; omega),hlast] at hshows'
  have hbare := hshows'.state.unique hshows.state
  have hversion : t'.version = db.mtree.version := (bare_eq_iff.mp hbare).2.2.2
  have hposition : t'.position = db.mtree.position := position_congr hbare
  have hv : db.mtree.version = v := hsaved.version
  have hne : v ≠ 0 := by
    have := hsaved.snapshot
    omega
  have ht' : DB.Tracks { db with mtree := t', phase := .pruning v err } h s.disk := {
    state := by
      refine ⟨t'.bare,by rw [hposition]; exact hshows'.state,hshows'.info,
        fun _ => ⟨by rw [hpending]; rfl,by simp [hpending]⟩,fun _ => rfl⟩
    sent := fun _ _ => hpending
    first := fun h0 => absurd (hv.symm.trans (hversion.symm.trans h0)) hne
    base := by rw [hposition]; exact ht.base
    writable := fun _ => ht.writable (.inl (by rw [hphase]; trivial))
    tmpDirs := ht.tmpDirs
    alive := ht.alive
    rewriter := ht.rewriter
    received := fun _ => ht.received (by rw [hphase]; trivial)
    waiting := by simp
    pruning := by
      rintro v' err' ⟨⟩
      exact ⟨hposition.trans hend,hversion.trans hv,hne⟩
    error := by
      have herr := ht.error
      rw [hphase] at herr
      exact herr }
  refine goes_same (hs.setDb hdb ht' ?_ hposition (fun r hr => .inl ⟨r,hr,rfl⟩) s.trace)
    (List.append_nil _).symm (by simp) (.of_some hdb rfl trivial hposition)
  rw [flight_of_held_nil rfl,flight_of_held_nil (by rw [hphase]; rfl)]
  exact chanFlight_congr rfl

end

/-- A channel whose goroutine has ended in time: it was closed and nothing is on its way. -/
theorem quit_of_recvQuit (ht : db.Tracks h d) (hc : db.walChan = some c) {err : Option String}
    (hquit : recvQuit c = some err) : err = none ∧ db.chanFlight = [] := by
  have hdead := recvQuit_isSome hquit
  obtain ⟨hwriter,-⟩ := ht.alive c hc hdead
  rw [recvQuit,hwriter] at hquit
  exact ⟨(Option.some.inj hquit).symm,chanFlight_of_dead hc hdead⟩

theorem goes_put (hs : s.Faithful h leftover) (hdb : s.db = some db)
    (hcommit : db.phase.Committing) (hheld : db.phase.held = []) {rewriter : Option Rewriter}
    {phase : Phase} (hcommit' : phase.Committing) (hheld' : phase.held = []) (herror : phase.error? = none)
    (hrewriter : ∀ r ∈ rewriter, r ∈ db.rewriter)
    (hreceived : phase.Switching → rewriter = none)
    (hwaiting : ∀ v err t, phase = .waiting v err t → h.Starts s.disk t)
    (hpruning : ∀ v err, phase ≠ .pruning v err) :
    s.GoesTo h leftover h (s.put { db with rewriter, phase }) := by
  have ht := hs.db db hdb
  have ht' : DB.Tracks { db with rewriter, phase } h s.disk := ht.sentOn hcommit
    (ht.sent hcommit hheld) herror ht.alive (fun r hr => ht.rewriter r (hrewriter r hr)) hreceived
    hwaiting hpruning
  refine goes_same (hs.setDb hdb ht' ?_ rfl (fun r hr => .inl ⟨r,hrewriter r hr,rfl⟩) s.trace)
    (List.append_nil _).symm (by simp) (.of_some hdb rfl hcommit' rfl)
  rw [flight_of_held_nil hheld',flight_of_held_nil hheld]
  exact chanFlight_congr rfl

theorem goes_proceeds (hok : s.Ok) (hs : s.Faithful h leftover) (hdb : s.db = some db)
    (hp : Proceeds s db none s') : s.GoesTo h leftover h s' := by
  have ht := hs.db db hdb
  have hdbok := hok.db db hdb
  have hphaseOk := hdbok.phase
  have herror := ht.error
  have hkept : ∀ r ∈ db.rewriter, (∃ r₀ ∈ db.rewriter, r.cloned = r₀.cloned) ∨
      r.cloned.version = db.mtree.version := fun r hr => .inl ⟨r,hr,rfl⟩
  rw [DB.PhaseOk] at hphaseOk
  cases hp with
  | sent hphase hc hsend => exact goes_sent hok hs hdb hphase hc hsend
  | outOfOrder hphase hw =>
    obtain ⟨wal,hw',-⟩ := carries_writeBatch (carries_writing hok hs hdb hphase)
    rw [hw] at hw'
    cases hw'
  | written hphase hw => exact goes_written hok hs hdb hphase hw
  | checked hphase _ =>
    exact goes_put hs hdb (by rw [hphase]; trivial) (by rw [hphase]; rfl) trivial rfl rfl
      (fun r hr => hr) False.elim (by simp) (by simp)
  | quit e hphase hquit =>
    rw [hphase] at hphaseOk
    obtain ⟨c,hc,hrecv⟩ := Option.bind_eq_some_iff.mp hquit
    exact absurd (recvQuit_isSome hrecv) (alive_of_open ht hphaseOk.1 hc)
  | passed hphase _ =>
    rw [hphase] at hphaseOk herror
    obtain rfl := herror
    exact goes_finishCommit hs hdb hdbok.base.sane (by rw [hphase]; trivial) (by rw [hphase]; rfl)
      hphaseOk.2.version hphaseOk.2.ne_zero
  | notRewritten hphase hr hstage => exact absurd hstage ((ht.rewriter _ hr).ok _)
  | dropped hphase hr hstage =>
    rw [hphase] at hphaseOk herror
    obtain rfl := herror
    have hnone : DB.Tracks { db with rewriter := none } h s.disk := ht.setRewriter (by simp)
      (fun _ => rfl) (ht.writable (.inl (by rw [hphase]; trivial)))
    have hdropped : s.GoesTo h leftover h { s with db := some { db with rewriter := none } } :=
      goes_same (hs.setDb hdb hnone rfl rfl (by simp) s.trace) (List.append_nil _).symm (by simp)
        (.of_phase hdb rfl rfl rfl)
    exact hdropped.trans (goes_finishCommit hdropped.faithful rfl hdbok.base.sane
      (by rw [hphase]; trivial) (by rw [hphase]; rfl) hphaseOk.2.version hphaseOk.2.ne_zero)
  | received hphase hr hstage =>
    rw [hphase] at herror
    refine goes_put hs hdb (by rw [hphase]; trivial) (by rw [hphase]; rfl) trivial rfl herror
      (by simp) (fun _ => rfl) ?_ (by simp)
    rintro v' err' t' ⟨⟩
    exact (ht.rewriter _ hr).result _ (.inr hstage)
  | notCaughtUp hphase hguard hcatch =>
    obtain ⟨⟨k,hk⟩,hbase,-⟩ := ht.waiting _ _ _ hphase
    rw [hk.position hs.valid] at hbase
    obtain ⟨t',hcatch',-⟩ := hk.catchupWAL_zero hs.valid hs.disk.logged hbase
    rw [hcatch] at hcatch'
    cases hcatch'
  | notReplayed hphase hguard hcatch happly =>
    rw [ht.sent (by rw [hphase]; trivial) (by rw [hphase]; rfl)] at happly
    cases happly
  | switched hphase hguard hcatch happly => exact goes_switched hok hs hdb hphase hguard hcatch happly
  | prunes hphase hnone =>
    rw [hphase] at herror
    obtain rfl := herror
    obtain ⟨hlatest,hversion,hne⟩ := ht.pruning _ _ hphase
    have hs' : Faithful { s with pruner := some { keepRecent := db.opts.snapshotKeepRecent } } h
        leftover := by
      refine ⟨hs.valid,hs.small,hs.disk,hs.flight,hs.db,?_,hs.leftover⟩
      rintro p ⟨⟩
      refine ⟨?_,?_,by simp⟩
      · rw [hdb]
        rintro x ⟨⟩
        exact hlatest
      · rw [hdb]
        rintro x ⟨⟩ r hr
        rw [ht.received (by rw [hphase]; trivial)] at hr
        cases hr
    have hstarted : s.GoesTo h leftover h
        { s with pruner := some { keepRecent := db.opts.snapshotKeepRecent } } :=
      goes_same hs' (List.append_nil _).symm (by simp) (.of_db rfl)
    exact hstarted.trans (goes_finishCommit hs' hdb hdbok.base.sane (by rw [hphase]; trivial)
      (by rw [hphase]; rfl) hversion hne)
  | waited hphase hc hquit =>
    obtain ⟨rfl,hnil⟩ := quit_of_recvQuit ht hc hquit
    have ht' : DB.Tracks { db with walChan := none, phase := .waitQuit } h s.disk :=
      ht.closing (by rw [hphase]; rfl) (.inl rfl) (by simp)
    have hflight : db.flight = [] := by rw [flight_of_held_nil (by rw [hphase]; rfl),hnil]
    refine goes_same (hs.setDb hdb (ht'.idle rfl) ?_ rfl hkept _) rfl (tells_of_ne (by simp) _ _)
      (.of_not hdb (by rw [hphase]; exact id))
    rw [hflight]
    rfl
  | awaits hphase hc hquit hsome =>
    obtain ⟨rfl,hnil⟩ := quit_of_recvQuit ht hc hquit
    have ht' : DB.Tracks { db with walChan := none, phase := .closeRewrite none } h s.disk :=
      ht.closing (by rw [hphase]; rfl) (.inr (.inr ⟨none,rfl⟩)) (by simp)
    have hflight : db.flight = [] := by rw [flight_of_held_nil (by rw [hphase]; rfl),hnil]
    refine goes_same (hs.setDb hdb ht' ?_ rfl hkept s.trace) (List.append_nil _).symm (by simp)
      (.of_not hdb (by rw [hphase]; exact id))
    rw [hflight]
    rfl
  | closed hphase hc hquit hnone =>
    refine goes_finishClose hs hdb (by rw [hphase]; exact id) ?_ _
    rw [flight_of_held_nil (by rw [hphase]; rfl),(quit_of_recvQuit ht hc hquit).2]
  | ends hphase =>
    rw [hphase] at hphaseOk
    refine goes_finishClose hs hdb (by rw [hphase]; exact id) ?_ _
    rw [flight_of_held_nil (by rw [hphase]; rfl),DB.chanFlight,hphaseOk.1]
    rfl

section
variable {c' : AsyncCommit} {wal' : IndexedLog WALEntry} {rest : List WalEntry}
  (hc : h.Carries wal (c.flight ++ rest)) (hfresh : c.Fresh wal.lastIndex)
include hc hfresh

/-- A batch that is about to be written comes next after the log. -/
theorem batch_next {batch : List (ℕ × WALEntry)} (hwriter : c.writer = .writing batch) :
    batch.map Prod.fst = List.range' (wal.lastIndex+1) batch.length := by
  have hflight : c.flight = batch.map (fun p => ⟨p.1,p.2⟩) ++ c.queue := by
    simp [AsyncCommit.flight,hwriter,Writer.Dead,Writer.items]
  rw [hflight,append_assoc] at hc
  have hnext := hc.batch (by
    intro e he
    obtain ⟨p,hp,rfl⟩ := List.mem_map.mp he
    exact hfresh batch hwriter p hp)
  simpa [Consecutive,Function.comp_def] using hnext

theorem carries_steps (hsorted : ((c.flight ++ rest).map WalEntry.index).Pairwise (· < ·))
    (hstep : AsyncCommit.Steps wal none c c' wal') :
    h.Carries wal' (c'.flight ++ rest) ∧ wal'.base = wal.base := by
  cases hstep.effect with
  | moved hflight hwal =>
    rw [hflight,hwal]
    exact ⟨hc,rfl⟩
  | skipped es later hflight hflight' hwal =>
    rw [hflight,append_assoc] at hc
    rw [hflight',hwal,append_assoc]
    exact ⟨hc.skip,rfl⟩
  | wrote es later hflight hes hwal hflight' =>
    rw [hflight,append_assoc] at hc hsorted
    rw [hflight',hwal]
    exact ⟨hc.write hsorted hes,rfl⟩
  | refused batch e hwriter hne _ _ => exact absurd (batch_next hc hfresh hwriter) hne
  | failed xs e hsome _ _ => cases hsome

/-- The goroutine ends only after its channel was closed. -/
theorem quit_of_steps (hstep : AsyncCommit.Steps wal none c c' wal') (hdead : c'.writer.Dead) :
    c'.writer = .quit ∧ c'.closed = true := by
  cases hstep with
  | quit _ _ hclosed => exact ⟨rfl,hclosed⟩
  | refuse hwriter hne => exact absurd (batch_next hc hfresh hwriter) hne
  | fail hsome _ => cases hsome
  | receive | count | collect | collected | read | write => cases hdead

end

theorem goes_writes (hok : s.Ok) (hs : s.Faithful h leftover) (hdb : s.db = some db)
    {c' : AsyncCommit} (hc : db.walChan = some c) (hstep : c.step s.disk.wal none = some (c',wal)) :
    s.GoesTo h leftover h
      { s with disk := { s.disk with wal }, db := some { db with walChan := some c' } } := by
  have ht := hs.db db hdb
  have hdbok := hok.db db hdb
  have hsteps := AsyncCommit.steps_of_step hstep
  have hflight : db.flight = c.flight ++ db.phase.held := by
    rw [DB.flight,DB.chanFlight,hc]
    rfl
  have hcarries := hs.flight
  have hsorted := hdbok.flight_sorted
  rw [flight_some hdb,hflight] at hcarries
  rw [hflight] at hsorted
  have hfresh := hdbok.base.fresh c hc
  obtain ⟨hcarries',hbase⟩ := carries_steps hcarries hfresh hsorted hsteps
  refine goes_same (hs.setWal hdb hcarries' ?_ ((ht.setWal hbase.le).setWalChan ?_) rfl rfl)
    (List.append_nil _).symm (by simp) (.of_phase hdb rfl rfl rfl)
  · intro w hw
    rw [hbase]
    exact hs.disk.covered w hw
  · rintro x ⟨⟩
    exact quit_of_steps hcarries hfresh hsteps

theorem Faithful.setRewriter (hs : s.Faithful h leftover) (hdb : s.db = some db) {r r' : Rewriter}
    (hr : db.rewriter = some r) (hkeeps : d.Keeps h leftover) (hwal : d.wal = s.disk.wal)
    (htmp : ∀ p ∈ d.tmpDirs, p.1 ≠ 0 ∧ h.Stores p)
    (hcurrent : d.current = s.disk.current ∨ d.current = some r.cloned.version)
    (hcloned : r'.cloned = r.cloned) (hr' : r'.Tracks h d) :
    Faithful { s with disk := d, db := some { db with rewriter := some r' } } h leftover := by
  have ht := hs.db db hdb
  have hswitching : ¬db.phase.Switching := fun hp => by
    rw [ht.received hp] at hr
    cases hr
  refine ⟨hs.valid,hs.small,hkeeps,?_,?_,?_,hs.leftover⟩
  · have hc := hs.flight
    rw [flight_some hdb] at hc
    rw [hwal]
    exact hc
  · rintro x ⟨⟩
    exact {
      state := by
        obtain ⟨st,hat,hinfo,hfollows,hcommit⟩ := ht.state
        exact ⟨st,hat,hinfo,fun hheld => (hfollows hheld).congr rfl rfl,hcommit⟩
      sent := ht.sent
      first := ht.first
      base := by rw [hwal]; exact ht.base
      writable := fun _ => ht.writable (.inr (by rw [hr]; rfl))
      tmpDirs := fun _ => htmp
      alive := ht.alive
      rewriter := by
        rintro x ⟨⟩
        exact hr'
      received := fun hp => absurd hp hswitching
      waiting := fun v err t hphase => absurd (by rw [hphase]; trivial) hswitching
      pruning := ht.pruning
      error := ht.error }
  · intro p hp
    have hpr := hs.pruner p hp
    refine ⟨?_,?_,?_⟩
    · rintro x ⟨⟩
      exact hpr.latest db hdb
    · rintro x ⟨⟩ y ⟨⟩ c hc
      rw [hcloned]
      rcases hcurrent with heq | heq
      · exact hpr.behind db hdb r hr c (heq ▸ hc)
      · rw [heq] at hc
        cases hc
        exact le_rfl
    · intro vs hstage v hmem c hc
      rcases hcurrent with heq | heq
      · exact hpr.removing vs hstage v hmem c (heq ▸ hc)
      · rw [heq] at hc
        cases hc
        obtain ⟨q,-,hq,-⟩ := hs.disk.current
        exact (hpr.removing vs hstage v hmem q.1 hq).trans_le (hpr.behind db hdb r hr q.1 hq)

/-- The snapshot that `current` leads to is one to catch up from. -/
theorem starts_loadCurrent (hs : s.Faithful h leftover) :
    ∃ t, s.disk.loadCurrent = .ok t ∧ h.Starts s.disk t := by
  obtain ⟨q,hq,hcurrent,hstores⟩ := hs.disk.current
  obtain ⟨t,hload,hversion,ht⟩ := hs.disk.loadMultiTree hs.valid hq hstores
  have hposition := ht.position hs.valid
  refine ⟨t,by rw [Disk.loadCurrent,hcurrent]; exact hload,⟨_,ht⟩,?_,?_⟩
  · rw [hposition]
    exact hs.disk.covered q.1 (List.mem_map_of_mem hq)
  · rw [hcurrent,hposition]
    rintro c ⟨⟩
    exact le_rfl

theorem starts_catchupWAL (hs : s.Faithful h leftover) {t : MultiTree} (ht : h.Starts s.disk t) :
    ∃ t', t.catchupWAL s.disk.wal 0 = .ok t' ∧ h.Starts s.disk t' := by
  obtain ⟨⟨k,hk⟩,hbase,hcurrent⟩ := ht
  rw [hk.position hs.valid] at hbase hcurrent
  obtain ⟨t',hcatch,hk'⟩ := hk.catchupWAL_zero hs.valid hs.disk.logged hbase
  refine ⟨t',hcatch,⟨_,hk'⟩,?_,?_⟩ <;> rw [hk'.position hs.valid]
  · exact hbase.trans (le_max_left ..)
  · exact fun c hc => (hcurrent c hc).trans (le_max_left ..)

theorem goes_rewrites (hs : s.Faithful h leftover) (hdb : s.db = some db) {r r' : Rewriter}
    (hr : db.rewriter = some r) (hfits : r.stage = .writing → r.cloned.Fits)
    (hstep : Rewrites s.disk r d r') : s.GoesTo h leftover h
      { s with disk := d, db := some { db with rewriter := some r' } } := by
  have ht := hs.db db hdb
  have htr := ht.rewriter r hr
  have htmp := ht.tmpDirs (ht.writable (.inr (by rw [hr]; rfl)))
  obtain ⟨k,hk⟩ := htr.cloned
  refine goes_same ?_ (List.append_nil _).symm (by simp) (.of_phase hdb rfl rfl rfl)
  cases hstep with
  | wrote hstage =>
    refine hs.setRewriter hdb hr (hs.disk.congr rfl rfl rfl) rfl ?_ (.inl rfl) rfl
      ⟨htr.cloned,htr.version,htr.base,by simp,by simp,by simp,by simp⟩
    exact stores_writeTmp hs.valid htmp hk htr.version (hfits hstage)
  | cancelled hstage =>
    exact hs.setRewriter hdb hr (hs.disk.congr rfl rfl rfl) rfl
      (fun p hp => htmp p (mem_of_mem_filter hp)) (.inl rfl) rfl
      ⟨htr.cloned,htr.version,htr.base,by simp,by simp,by simp,by simp⟩
  | renamed hstage hd =>
    have hbase : s.disk.wal.base ≤ entriesAt r.cloned.version h.start.initialVersion := by
      rw [← hk.initialVersion hs.valid]
      exact htr.base
    have hren := renames_renameTmp hs.disk htmp hbase hd
    exact hs.setRewriter hdb hr hren.keeps hren.wal hren.tmpDirs (.inl hren.current) rfl
      ⟨htr.cloned,htr.version,by rw [hren.wal]; exact htr.base,fun _ => hren.mem,by simp,by simp,
        by simp⟩
  | linked hstage hd =>
    simp only [Disk.linkTmp,Option.ite_none_left_eq_some,Option.some.injEq] at hd
    obtain ⟨-,rfl⟩ := hd
    exact hs.setRewriter hdb hr (hs.disk.congr rfl rfl rfl) rfl htmp (.inl rfl) rfl
      ⟨htr.cloned,htr.version,htr.base,fun _ => htr.renamed (.inl hstage),fun _ => rfl,by simp,
        by simp⟩
  | switched hstage hd =>
    rw [Disk.renameLink,htr.linked hstage] at hd
    obtain rfl := Option.some.inj hd
    obtain ⟨dir,hmem,hstores⟩ := htr.renamed (.inr hstage)
    exact hs.setRewriter hdb hr (hs.disk.setCurrent hmem hstores none) rfl htmp (.inr rfl) rfl
      ⟨htr.cloned,htr.version,htr.base,by simp,by simp,by simp,by simp⟩
  | failed =>
    exact hs.setRewriter hdb hr hs.disk rfl htmp (.inl rfl) rfl
      ⟨htr.cloned,htr.version,htr.base,by simp,by simp,by simp,by simp⟩
  | notLoaded hstage hload =>
    obtain ⟨t,hload',-⟩ := starts_loadCurrent hs
    rw [hload] at hload'
    cases hload'
  | loaded hstage hload =>
    obtain ⟨t,hload',hstarts⟩ := starts_loadCurrent hs
    rw [hload] at hload'
    cases hload'
    refine hs.setRewriter hdb hr hs.disk rfl htmp (.inl rfl) rfl
      ⟨htr.cloned,htr.version,htr.base,by simp,by simp,?_,by simp⟩
    rintro t' (⟨⟨⟩⟩ | ⟨⟨⟩⟩)
    exact hstarts
  | caughtUp hstage =>
    obtain ⟨t',hcatch,hstarts⟩ := starts_catchupWAL hs (htr.result _ (.inl hstage))
    rw [hcatch]
    refine hs.setRewriter hdb hr hs.disk rfl htmp (.inl rfl) rfl
      ⟨htr.cloned,htr.version,htr.base,by simp,by simp,?_,by simp⟩
    rintro t'' (⟨⟨⟩⟩ | ⟨⟨⟩⟩)
    exact hstarts

theorem lt_of_toPrune {current counter : ℕ} {vs pruned : List ℕ}
    (htoPrune : Disk.toPrune current counter vs = .ok pruned) : ∀ v ∈ pruned, v < current := by
  induction vs generalizing counter pruned with
  | nil =>
    cases htoPrune
    simp
  | cons v vs ih =>
    rw [Disk.toPrune] at htoPrune
    cases hparse : parseVersion v with
    | error e =>
      rw [hparse] at htoPrune
      cases htoPrune
    | ok w =>
      rw [hparse] at htoPrune
      simp only at htoPrune
      split_ifs at htoPrune with hge hcounter
      · exact ih htoPrune
      · exact ih htoPrune
      · split at htoPrune
        · cases htoPrune
        · rename_i rest hrest
          cases htoPrune
          intro x hx
          rcases mem_cons.mp hx with rfl | hx
          · omega
          · exact ih hrest x hx

theorem current_of_currentVersion {c : ℕ} (hc : d.currentVersion = .ok c) : d.current = some c := by
  unfold Disk.currentVersion parseVersion at hc
  split at hc
  · cases hc
  · rename_i v hv
    split_ifs at hc
    cases hc
    exact hv

theorem Faithful.dropPruner (hs : s.Faithful h leftover) (panicked : Bool) :
    Faithful { s with pruner := none, panicked } h leftover :=
  ⟨hs.valid,hs.small,hs.disk,hs.flight,hs.db,by rintro p ⟨⟩,hs.leftover⟩

theorem faithful_removed (hs : s.Faithful h leftover) (hp : s.pruner = some p) {vs : List ℕ}
    (hstage : p.stage = .removing (v::vs)) :
    Faithful { s with
      disk := s.disk.removeSnapshot v, pruner := some { p with stage := .removing vs } } h
        leftover := by
  have hpr := hs.pruner p hp
  have hlt := hpr.removing _ hstage v mem_cons_self
  have hrest : ∀ ws, PruneStage.removing vs = .removing ws → ∀ w ∈ ws, ∀ c ∈ s.disk.current, w < c := by
    rintro ws ⟨⟩ w hw
    exact hpr.removing _ hstage w (mem_cons_of_mem v hw)
  have hkeeps := hs.disk.removeSnapshot fun c hc => (hlt c hc).ne
  unfold Disk.removeSnapshot at hkeeps ⊢
  split_ifs at hkeeps ⊢
  · refine ⟨hs.valid,hs.small,hkeeps,hs.flight,hs.db,?_,hs.leftover⟩
    rintro q ⟨⟩
    exact ⟨hpr.latest,hpr.behind,hrest⟩
  refine ⟨hs.valid,hs.small,hkeeps,hs.flight,?_,?_,hs.leftover⟩
  · intro db hdb
    have ht := hs.db db hdb
    refine ht.setDisk rfl ht.base ?_ ?_
    · intro r hr
      have htr := ht.rewriter r hr
      refine ⟨htr.cloned,htr.version,htr.base,fun hstage' => ?_,htr.linked,?_,htr.ok⟩
      · obtain ⟨dir,hmem,hstores⟩ := htr.renamed hstage'
        obtain ⟨q,-,hq,-⟩ := hs.disk.current
        have hne := (hlt q.1 hq).trans_le (hpr.behind db hdb r hr q.1 hq)
        exact ⟨dir,mem_filter.mpr ⟨hmem,by simpa using hne.ne'⟩,hstores⟩
      · intro t ht
        exact (htr.result t ht).congr (htr.result t ht).base rfl
    · intro w err t hphase
      exact (ht.waiting w err t hphase).congr (ht.waiting w err t hphase).base rfl
  · rintro q ⟨⟩
    exact ⟨hpr.latest,hpr.behind,hrest⟩

theorem entriesAt_le {w : ℕ} {iv : UInt32} (hv : Committable v iv) (hle : v ≤ w) :
    entriesAt v iv ≤ entriesAt w iv := by
  unfold Committable at hv
  unfold entriesAt walIndex
  split_ifs <;> omega

/-- The log is cut before the current snapshot, which nothing falls behind. -/
theorem faithful_truncated (hs : s.Faithful h leftover) (hp : s.pruner = some p)
    (hdb : s.db = some db) : Faithful { s with
      disk := s.disk.truncateWAL db.mtree.initialVersion, pruner := none } h leftover := by
  have hpr := hs.pruner p hp
  have ht := hs.db db hdb
  have htrunc := s.disk.truncationOf_truncateWAL db.mtree.initialVersion
  have hdisk := s.disk.truncateWAL_eq_setWal db.mtree.initialVersion
  rw [ht.initialVersion hs.valid] at htrunc hdisk ⊢
  have hsmall : s.disk.wal.lastIndex < 2^63 := hs.disk.logged.le.trans_lt hs.small
  have hcovered : ∀ v ∈ s.disk.versions,
      (s.disk.truncateWAL h.start.initialVersion).wal.base ≤ entriesAt v h.start.initialVersion :=
    fun v hv => Disk.base_truncateWAL hs.disk.sorted hs.disk.covered hsmall hv
  generalize (s.disk.truncateWAL h.start.initialVersion).wal = wal at htrunc hdisk hcovered
  rw [hdisk]
  obtain ⟨c,hc⟩ : ∃ c, s.disk.current = some c := by
    obtain ⟨q,-,hq,-⟩ := hs.disk.current
    exact ⟨q.1,hq⟩
  have hbase := hcovered c (hs.disk.current_mem hc)
  have hs' : Faithful { s with disk := { s.disk with wal }, db := some db } h leftover := by
    refine hs.setWal hdb ?_ hcovered (ht.setDisk rfl ?_ ?_ ?_) rfl rfl
    · rw [← flight_some hdb]
      exact hs.flight.truncation htrunc
    · rw [hpr.latest db hdb]
      exact hbase.trans (hs.disk.current_le hs.valid hc)
    · intro r hr
      have htr := ht.rewriter r hr
      refine htr.setWal (hbase.trans ?_) fun t hstage =>
        hbase.trans ((htr.result t hstage).current c hc)
      obtain ⟨k,hk⟩ := htr.cloned
      rw [position,hk.initialVersion hs.valid]
      exact entriesAt_le (hs.disk.current_committable hs.valid hc) (hpr.behind db hdb r hr c hc)
    · intro v err t hphase
      have hstarts := ht.waiting v err t hphase
      exact hstarts.congr (hbase.trans (hstarts.current c hc)) rfl
  rw [← hdb] at hs'
  exact hs'.dropPruner _

theorem goes_prunes (hs : s.Faithful h leftover) (hp : s.pruner = some p) (hstep : Prunes s p s') :
    s.GoesTo h leftover h s' := by
  have hpr := hs.pruner p hp
  cases hstep with
  | ended | panics =>
    exact goes_same (hs.dropPruner _) (List.append_nil _).symm (by simp) (.of_db rfl)
  | @listed current vs hstage hcurrent hvs =>
    refine goes_same ⟨hs.valid,hs.small,hs.disk,hs.flight,hs.db,?_,hs.leftover⟩
      (List.append_nil _).symm (by simp) (.of_db rfl)
    rintro q ⟨⟩
    refine ⟨hpr.latest,hpr.behind,?_⟩
    rintro ws ⟨⟩ v hv c hc
    rw [current_of_currentVersion hcurrent] at hc
    cases hc
    exact lt_of_toPrune hvs v hv
  | removed hstage =>
    exact goes_same (faithful_removed hs hp hstage) (List.append_nil _).symm (by simp) (.of_db rfl)
  | truncated hstage hdb =>
    exact goes_same (faithful_truncated hs hp hdb) (List.append_nil _).symm (by simp) (.of_db rfl)

end System

end Memiavl
