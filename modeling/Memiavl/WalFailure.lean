import Memiavl.WaitLoop

/-! Calls after a failed write to the log: which of them return whatever the goroutines do,
and which of them report the failure. -/
namespace Memiavl

open MultiTree Option Transition

/-- Steps other than the start of a call. -/
def Act.Internal : Act → Prop
  | .proceed _ | .write _ | .rewrite _ | .prune => True
  | _ => False

def Reply.IsError : Reply → Prop
  | .error _ => True
  | _ => False

theorem AsyncCommit.Steps.alive {c c' : AsyncCommit} {wal wal' : IndexedLog WALEntry}
    {failure : Option ℕ} (h : Steps wal failure c c' wal') : ¬c.writer.Dead := by
  cases h with
  | fail _ hw => rcases hw with ⟨_,hw⟩ | ⟨_,hw⟩ <;> rw [hw] <;> exact id
  | receive hw | quit hw | count hw | collect hw | collected hw | read hw | write hw | refuse hw =>
    rw [hw]
    exact id

namespace System

/-- The call `c` has returned with a reply in `Q`. -/
def Returned (c : Call) (Q : Reply → Prop) (s : System) : Prop :=
  (∀ db ∈ s.db, db.phase = .idle) ∧ ∃ r view, s.trace.getLast? = some (.returned c r view) ∧ Q r

/-- The system comes to `P` whatever the goroutines do and wherever writes fail. -/
def Comes (P : System → Prop) (s : System) : Prop :=
  Inevitably (Moves System.step fun _ a => a.Internal) P s

def EndsWith (s : System) (c : Call) (Q : Reply → Prop) : Prop :=
  ∃ s', s.step (.call c) = some s' ∧ s'.Comes (Returned c Q)

/-- The call ends after finitely many steps. -/
def Ends (s : System) (c : Call) : Prop := s.EndsWith c fun _ => True

/-- The call ends after finitely many steps and returns an error. -/
def Fails (s : System) (c : Call) : Prop := s.EndsWith c Reply.IsError

variable {s s' : System} {db db' : DB} {c : AsyncCommit} {P A : System → Prop}

theorem returned_ret {call : Call} {r : Reply} {Q : Reply → Prop} (h : Q r) :
    (s.ret db call r).Returned call Q := by
  refine ⟨?_,r,db.mtree.view,by simp [ret],h⟩
  rintro x ⟨⟩
  rfl

theorem returned_finishClose {err : Option String} {Q : Reply → Prop} (h : Q (.ofError err)) :
    (s.finishClose err).Returned .close Q :=
  ⟨by simp [finishClose],.ofError err,{},by simp [finishClose],h⟩

theorem Comes.trans (h : s.Comes fun t => t.Comes P) : s.Comes P :=
  Inevitably.trans h fun _ ht => ht

/-- A call stays where it is, in `A`, until it goes on to `P`. -/
theorem comes_of_stage
    (hbg : ∀ s t a, A s → a.Background → s.step a = some t → A t)
    (hproc : ∀ s t f, A s → s.step (.proceed f) = some t → P t)
    (hlive : ∀ s, A s → ∃ a t, a.Internal ∧ s.step a = some t) (hs : A s) : s.Comes P := by
  refine Inevitably.of_rank wellFounded_lt work (A := A) ?_ ?_ hs
  · rintro s t hs ⟨a,ha,hstep⟩
    cases a with
    | load o | call c | crash keep | interrupt w n keep => exact ha.elim
    | proceed f => exact .inl (hproc s t f hs hstep)
    | write f | rewrite ok | prune =>
      exact .inr ⟨hbg s t _ hs (by trivial) hstep,work_lt (by trivial) hstep⟩
  · intro s hs
    obtain ⟨a,t,ha,hstep⟩ := hlive s hs
    exact ⟨t,a,ha,hstep⟩

/-- The call can always go on. -/
theorem comes_of_proceed (hbg : ∀ s t a, A s → a.Background → s.step a = some t → A t)
    (hproc : ∀ s f, A s → ∃ t, s.step (.proceed f) = some t ∧ t.Comes P) (hs : A s) :
    s.Comes P := by
  refine Comes.trans (comes_of_stage hbg (fun s t f h hstep => ?_) (fun s h => ?_) hs)
  · obtain ⟨t,ht,hcomes⟩ := hproc s f h
    cases ht.symm.trans hstep
    exact hcomes
  · obtain ⟨t,ht,-⟩ := hproc s none h
    exact ⟨.proceed none,t,trivial,ht⟩

theorem step_write {failure : Option ℕ} {p : AsyncCommit × IndexedLog WALEntry}
    (hdb : s.db = some db) (hc : db.walChan = some c)
    (h : c.step s.disk.wal failure = some p) : ∃ t, s.step (.write failure) = some t :=
  ⟨_,by simp only [System.step,hdb,hc,h,bind_eq_bind,bind_some]; rfl⟩

theorem step_proceed (hdb : s.db = some db) (f : Option ℕ) :
    s.step (.proceed f) = s.proceed db f := by
  simp [System.step,hdb]

/-- A call waits for the goroutine of a closed channel to end. `W` holds of the goroutine until
it does. -/
def Closing (phase : Phase) (W : Writer → Prop) (s : System) : Prop :=
  s.Ok ∧ ∃ db c, s.db = some db ∧ db.phase = phase ∧ db.walChan = some c ∧ c.closed = true ∧
    W c.writer

/-- The goroutine goes on until it has failed or the closed channel is empty. -/
theorem exists_step_closed (hok : c.Ok) (hclosed : c.closed = true) (halive : ¬c.writer.Dead)
    (wal : IndexedLog WALEntry) : ∃ p, c.step wal none = some p := by
  by_cases hne : c.flight = []
  · rw [AsyncCommit.flight_of_alive halive,List.append_eq_nil_iff] at hne
    obtain ⟨hitems,hq⟩ := hne
    cases hw : c.writer with
    | receiving => exact ⟨_,by simp only [AsyncCommit.step,hw,hq,hclosed,if_true]; rfl⟩
    | counting item | reading entries => exact ⟨_,by simp only [AsyncCommit.step,hw]; rfl⟩
    | collecting n result =>
      have hn := hok.counted _ _ hw
      rw [hq,List.length_nil,Nat.le_zero] at hn
      subst hn
      exact ⟨_,by simp only [AsyncCommit.step,hw]; rfl⟩
    | writing batch =>
      simp only [AsyncCommit.step,hw]
      split <;> exact ⟨_,rfl⟩
    | failing err | quit =>
      rw [hw] at halive
      exact absurd trivial halive
  · exact AsyncCommit.exists_step hok hne wal

theorem exists_recvQuit (hdead : c.writer.Dead) : ∃ err, recvQuit c = some err := by
  cases hw : c.writer <;> rw [hw] at hdead <;> try exact hdead.elim
  · exact ⟨_,by simp only [recvQuit,hw]; rfl⟩
  · exact ⟨_,by simp only [recvQuit,hw]; rfl⟩

/-- The wait for the goroutine ends, with what `recvQuit` then gives. -/
theorem comes_of_closing {phase : Phase} {W : Writer → Prop}
    (hphase : phase = .waitQuit ∨ phase = .closeQuit)
    (hW : ∀ {c c' : AsyncCommit} {wal wal' f}, AsyncCommit.Steps wal f c c' wal' → W c.writer →
      W c'.writer)
    (hproc : ∀ (s t : System) (db : DB) (c : AsyncCommit) f err, s.Ok → s.db = some db → db.phase = phase → db.walChan = some c →
      W c.writer → recvQuit c = some err → s.proceed db f = some t → P t)
    (hs : s.Closing phase W) : s.Comes P := by
  refine comes_of_stage (A := Closing phase W) ?_ ?_ ?_ hs
  · rintro s t a ⟨hok,db,c,hdb,hp,hc,hclosed,hw⟩ ha hstep
    obtain ⟨db',hdb',hstay⟩ := background_db hok ha hdb hstep
    refine ⟨hok.step hstep,db',?_⟩
    rcases hstay.chan with ⟨hc',-⟩ | ⟨c₁,c',f,-,hc₁,hc',hsteps⟩
    · exact ⟨c,hdb',by rw [hstay.phase,hp],by rw [hc',hc],hclosed,hw⟩
    · cases hc.symm.trans hc₁
      obtain ⟨-,-,hcl⟩ := hsteps.ok ((hok.db db hdb).base.chan c hc).1
      exact ⟨c',hdb',by rw [hstay.phase,hp],hc',hcl.trans hclosed,hW hsteps hw⟩
  · rintro s t f ⟨hok,db,c,hdb,hp,hc,hclosed,hw⟩ hstep
    rw [step_proceed hdb] at hstep
    have hdead : c.writer.Dead := by
      rcases hphase with rfl | rfl <;>
      · simp only [proceed,hp,hc,bind_eq_bind,bind_some,
          bind_eq_some_iff] at hstep
        obtain ⟨err,herr,-⟩ := hstep
        exact recvQuit_isSome herr
    obtain ⟨err,herr⟩ := exists_recvQuit hdead
    exact hproc s t db c f err hok hdb hp hc hw herr hstep
  · rintro s ⟨hok,db,c,hdb,hp,hc,hclosed,hw⟩
    by_cases hdead : c.writer.Dead
    · obtain ⟨err,herr⟩ := exists_recvQuit hdead
      refine ⟨.proceed none,?_⟩
      rcases hphase with rfl | rfl <;>
        exact ⟨_,trivial,by simp only [step_proceed hdb,proceed,hp,hc,herr,bind_eq_bind,bind_some]; rfl⟩
    · obtain ⟨p,hp⟩ := exists_step_closed ((hok.db db hdb).base.chan c hc).1 hclosed hdead
        s.disk.wal
      obtain ⟨t,ht⟩ := step_write hdb hc hp
      exact ⟨.write none,t,trivial,ht⟩

variable {Q Q' : Reply → Prop}

theorem step_call (hdb : s.db = some db) (hidle : db.phase = .idle) (call : Call) :
    s.step (.call call) = some (s.startCall db call) := by
  simp [System.step,hdb,hidle]

variable {call : Call} {W : Writer → Prop}

theorem Returned.step (h : s.Returned call Q) {a : Act} (ha : a.Internal)
    (hstep : s.step a = some s') : s'.Returned call Q := by
  obtain ⟨hidle,r,view,hlast,hr⟩ := h
  cases turns_of_step hstep with
  | loaded _ _ _ | notLoaded _ _ _ | starts _ _ _ | crashed keep | interrupted _ => exact ha.elim
  | @proceeds f db _ hdb _ =>
    rw [step_proceed hdb,proceed,hidle db hdb] at hstep
    cases hstep
  | writes hdb _ _ | rewrites hdb _ _ =>
    have hphase := hidle _ hdb
    refine ⟨?_,r,view,hlast,hr⟩
    rintro x ⟨⟩
    exact hphase
  | prunes _ hp =>
    obtain ⟨-,hdb,htrace⟩ := hp.same
    exact ⟨by rwa [hdb],r,view,by rwa [htrace],hr⟩

theorem Returned.not_returned (h : s.Returned call Q) (hQ : ∀ r, Q r → ¬Q' r) :
    ¬s.Returned call Q' := by
  rintro ⟨-,r',view',hlast',hr'⟩
  obtain ⟨-,r,view,hlast,hr⟩ := h
  cases hlast.symm.trans hlast'
  exact hQ _ hr hr'

theorem Comes.not_comes (h : s.Comes (Returned call Q)) (hQ : ∀ r, Q r → ¬Q' r) :
    ¬s.Comes (Returned call Q') := by
  induction h with
  | now hs =>
    refine Inevitably.not_of_closed (C := Returned call Q)
      (fun t ht => ht.not_returned hQ) ?_ hs
    rintro t u ht ⟨a,ha,hstep⟩
    exact ht.step ha hstep
  | later hex _ ih =>
    intro h'
    obtain ⟨t,ht⟩ := hex
    refine ih t ht ?_
    cases h' with
    | now hs =>
      obtain ⟨a,ha,hstep⟩ := ht
      exact .now (hs.step ha hstep)
    | later _ hall => exact hall t ht

theorem EndsWith.not_endsWith (h : s.EndsWith call Q) (hQ : ∀ r, Q r → ¬Q' r) :
    ¬s.EndsWith call Q' := by
  rintro ⟨t',ht',hc'⟩
  obtain ⟨t,ht,hc⟩ := h
  cases ht.symm.trans ht'
  exact hc.not_comes hQ hc'

theorem EndsWith.mono (h : s.EndsWith call Q) (hQ : ∀ r, Q r → Q' r) : s.EndsWith call Q' := by
  obtain ⟨t,ht,hc⟩ := h
  refine ⟨t,ht,hc.mono ?_⟩
  rintro u ⟨hidle,r,view,hlast,hr⟩
  exact ⟨hidle,r,view,hlast,hQ r hr⟩

theorem closing_start (hs : s.Ok) (hdb : s.db = some db) (hc : db.walChan = some c) {phase : Phase}
    (hphase : phase = .waitQuit ∨ phase = .closeQuit) (hw : W c.writer) :
    (s.put { db with walChan := some { c with closed := true }, phase }).Closing phase W :=
  ⟨ok_closing hs.disk (hs.db db hdb).base hc hphase,_,_,rfl,rfl,rfl,rfl,hw⟩

/-- The goroutine that rewrites a snapshot is never blocked before its end. -/
theorem exists_rewriteStep {r : Rewriter} (d : Disk)
    (h : ¬((∃ x, r.stage = .sending x) ∨ r.stage = .finished)) :
    ∃ p, rewriteStep d r true = some p := by
  unfold rewriteStep
  split <;> rename_i hstage
  · exact ⟨_,rfl⟩
  · exact ⟨_,rfl⟩
  · exact ⟨_,rfl⟩
  · exact ⟨_,rfl⟩
  · split <;> exact ⟨_,rfl⟩
  · exact ⟨_,rfl⟩
  · exact absurd (.inl ⟨_,hstage⟩) h
  · exact absurd (.inr hstage) h

def ClosingRewrite (err : Option String) (s : System) : Prop :=
  s.Ok ∧ ∃ db, s.db = some db ∧ db.phase = .closeRewrite err

theorem comes_of_closingRewrite {err : Option String} (hQ : Q (.ofError err))
    (hs : s.ClosingRewrite err) : s.Comes (Returned .close Q) := by
  refine comes_of_stage (A := ClosingRewrite err) ?_ ?_ ?_ hs
  · rintro s t a ⟨hok,db,hdb,hphase⟩ ha hstep
    obtain ⟨db',hdb',hstay⟩ := background_db hok ha hdb hstep
    exact ⟨hok.step hstep,db',hdb',by rw [hstay.phase,hphase]⟩
  · rintro s t f ⟨hok,db,hdb,hphase⟩ hstep
    simp only [step_proceed hdb,proceed,hphase,bind_eq_bind,
      bind_eq_some_iff] at hstep
    obtain ⟨r,hr,hstep⟩ := hstep
    split at hstep <;> cases hstep <;> exact returned_finishClose hQ
  · rintro s ⟨hok,db,hdb,hphase⟩
    have hp := (hok.db db hdb).phase
    rw [DB.PhaseOk,hphase] at hp
    obtain ⟨r,hr⟩ := isSome_iff_exists.mp hp.2
    by_cases hend : (∃ x, r.stage = .sending x) ∨ r.stage = .finished
    · refine ⟨.proceed none,?_⟩
      rcases hend with ⟨x,hx⟩ | hx <;>
        exact ⟨_,trivial,by simp only [step_proceed hdb,proceed,hphase,hr,hx,bind_eq_bind,bind_some]; rfl⟩
    · obtain ⟨p,hp⟩ := exists_rewriteStep s.disk hend
      exact ⟨.rewrite true,_,trivial,by
        simp only [System.step,hdb,hr,hp,bind_eq_bind,bind_some]; rfl⟩

theorem comes_closeRewrite {err : Option String} (hd : s.disk.Sane)
    (hb : db.Base s.disk.wal.lastIndex) (hchan : db.walChan = none) (hQ : Q (.ofError err)) :
    (s.closeRewrite db err).Comes (Returned .close Q) := by
  have hok := ok_closeRewrite hd hb hchan err
  cases hr : db.rewriter with
  | none =>
    simp only [closeRewrite,hr]
    exact .now (returned_finishClose hQ)
  | some r =>
    simp only [closeRewrite,hr] at hok ⊢
    exact comes_of_closingRewrite hQ ⟨hok,_,rfl,rfl⟩

/-- `WaitAsyncCommit` and `Close` end with what `walQuit` gives them. -/
theorem endsWith_quit (hcall : call = .waitAsyncCommit ∨ call = .close) (hs : s.Ok)
    (hdb : s.db = some db) (hidle : db.phase = .idle) (hc : db.walChan = some c)
    (hw : W c.writer)
    (hW : ∀ {c c' : AsyncCommit} {wal wal' f}, AsyncCommit.Steps wal f c c' wal' → W c.writer →
      W c'.writer)
    (hQ : ∀ c err, W (AsyncCommit.writer c) → recvQuit c = some err → Q (.ofError err)) :
    s.EndsWith call Q := by
  refine ⟨_,step_call hdb hidle _,?_⟩
  rcases hcall with rfl | rfl <;> simp only [startCall,hc]
  · refine comes_of_closing (.inl rfl) hW ?_ (closing_start hs hdb hc (.inl rfl) hw)
    intro s t db c f err hok hdb hphase hc hw herr hproc
    simp only [proceed,hphase,hc,herr,bind_eq_bind,bind_some] at hproc
    cases hproc
    exact returned_ret (hQ c err hw herr)
  · -- First the goroutine of the log ends, then the one that rewrites a snapshot.
    refine Comes.trans (comes_of_closing (.inr rfl) hW ?_ (closing_start hs hdb hc (.inr rfl) hw))
    intro s t db c f err hok hdb hphase hc hw herr hproc
    simp only [proceed,hphase,hc,herr,bind_eq_bind,bind_some] at hproc
    cases hproc
    have hb := (hok.db db hdb).base.closeChan
    simp only [hphase] at hb
    exact comes_closeRewrite hok.disk hb rfl (hQ c err hw herr)

variable {t : System} {n : ℕ} {p : Phase → AsyncCommit → Prop}

/-- The goroutine of a rewrite is about to deliver new trees. -/
def Delivered (s : System) : Prop :=
  ∃ db ∈ s.db, ∃ r ∈ db.rewriter, ∃ m, r.stage = .sending (.ok m)

/-- It can come to that. -/
def MaySwitch (s : System) : Prop :=
  ∃ t, Run System.step (fun _ a => a.Background) s t ∧ t.Delivered

theorem MaySwitch.of_step {a : Act} (h : s'.MaySwitch) (ha : a.Background)
    (hstep : s.step a = some s') : s.MaySwitch := by
  obtain ⟨t,ht,hd⟩ := h
  exact ⟨t,.head ⟨a,ha,hstep⟩ ht,hd⟩

/-- States that the goroutines do not tell apart once the one of the log has failed. -/
structure Alike (s t : System) : Prop where
  disk : t.disk = s.disk
  pruner : t.pruner = s.pruner
  db : ∃ db db', s.db = some db ∧ t.db = some db' ∧ db'.rewriter = db.rewriter ∧
    db'.mtree.initialVersion = db.mtree.initialVersion ∧
    (∀ c ∈ db.walChan, c.writer.Dead) ∧ ∀ c ∈ db'.walChan, c.writer.Dead

namespace Alike

theorem symm (h : Alike s t) : Alike t s := by
  obtain ⟨db,db',hdb,hdb',hr,hv,hd,hd'⟩ := h.db
  exact ⟨h.disk.symm,h.pruner.symm,db',db,hdb',hdb,hr.symm,hv.symm,hd',hd⟩

theorem prune (h : Alike s t) (p : Pruner) : Alike (s.pruneStep p) (t.pruneStep p) := by
  obtain ⟨db,db',hdb,hdb',hr,hv,hd,hd'⟩ := h.db
  have hsame : (s.pruneStep p).disk = (t.pruneStep p).disk ∧
      (s.pruneStep p).pruner = (t.pruneStep p).pruner := by
    unfold pruneStep
    rw [h.disk,hdb,hdb']
    split
    · split
      · exact ⟨rfl,rfl⟩
      · split <;> exact ⟨rfl,rfl⟩
    · exact ⟨rfl,rfl⟩
    · simp [hv]
  exact ⟨hsame.1.symm,hsame.2.symm,db,db',(prunes_pruneStep s p).same.2.1.trans hdb,
    (prunes_pruneStep t p).same.2.1.trans hdb',hr,hv,hd,hd'⟩

theorem step (h : Alike s t) {a : Act} (ha : a.Background) (hstep : s.step a = some s') :
    ∃ t', t.step a = some t' ∧ Alike s' t' := by
  obtain ⟨db,db',hdb,hdb',hr,hv,hd,hd'⟩ := h.db
  cases a with
  | load o | call c | proceed f | crash keep | interrupt w n keep => exact ha.elim
  | write f =>
    simp only [System.step,hdb,bind_eq_bind,bind_some,
      bind_eq_some_iff] at hstep
    obtain ⟨c,hc,⟨c',wal⟩,hcs,-⟩ := hstep
    exact absurd (hd c hc) (AsyncCommit.steps_of_step hcs).alive
  | rewrite ok =>
    simp only [System.step,hdb,bind_eq_bind,bind_some,
      bind_eq_some_iff] at hstep
    obtain ⟨r,hrr,⟨d,r'⟩,hrs,hstep⟩ := hstep
    cases hstep
    refine ⟨{ t with disk := d, db := some { db' with rewriter := some r' } },?_,
      rfl,h.pruner,_,_,rfl,rfl,rfl,hv,hd,hd'⟩
    simp [System.step,hdb',hr,hrr,h.disk,hrs]
  | prune =>
    simp only [System.step,bind_eq_bind,bind_eq_some_iff] at hstep
    obtain ⟨p,hp,hstep⟩ := hstep
    cases hstep
    exact ⟨t.pruneStep p,by simp [System.step,h.pruner,hp],h.prune p⟩

theorem run (h : Alike s t) (hrun : Run System.step (fun _ a => a.Background) s s') :
    ∃ t', Run System.step (fun _ a => a.Background) t t' ∧ Alike s' t' := by
  induction hrun with
  | refl => exact ⟨t,.refl,h⟩
  | tail _ hm ih =>
    obtain ⟨t₁,ht₁,h₁⟩ := ih
    obtain ⟨a,ha,hstep⟩ := hm
    obtain ⟨t₂,ht₂,h₂⟩ := h₁.step ha hstep
    exact ⟨t₂,ht₁.tail ⟨a,ha,ht₂⟩,h₂⟩

theorem delivered (h : Alike s t) (hs : s.Delivered) : t.Delivered := by
  obtain ⟨db₁,hdb₁,r,hr₁,m,hm⟩ := hs
  obtain ⟨db,db',hdb,hdb',hr,-⟩ := h.db
  cases hdb₁.symm.trans hdb
  exact ⟨db',hdb',r,by rw [hr]; exact hr₁,m,hm⟩

theorem maySwitch (h : Alike s t) (hs : s.MaySwitch) : t.MaySwitch := by
  obtain ⟨s',hrun,hd⟩ := hs
  obtain ⟨t',hrun',h'⟩ := h.run hrun
  exact ⟨t',hrun',h'.delivered hd⟩

end Alike

/-- `Commit` has saved the version of position `n`, and the goroutine of the log has failed. -/
structure Stage (n : ℕ) (p : Phase → AsyncCommit → Prop) (s : System) : Prop where
  ok : s.Ok
  db : ∃ db c, s.db = some db ∧ db.walChan = some c ∧ c.writer.Dead ∧ db.mtree.position = n ∧
    p db.phase c

theorem Stage.step (h : Stage n p s) {a : Act} (ha : a.Background) (hstep : s.step a = some s') :
    Stage n p s' ∧ s'.disk.wal.lastIndex = s.disk.wal.lastIndex := by
  obtain ⟨db,c,hdb,hc,hdead,hpos,hp⟩ := h.db
  obtain ⟨db',hdb',hstay⟩ := background_db h.ok ha hdb hstep
  rcases hstay.chan with ⟨hc',hwal⟩ | ⟨c₁,c',f,-,hc₁,hc',hsteps⟩
  · exact ⟨⟨h.ok.step hstep,db',c,hdb',hc'.trans hc,hdead,by rw [hstay.mtree,hpos],
      by rw [hstay.phase]; exact hp⟩,hwal.lastIndex_eq⟩
  · cases hc.symm.trans hc₁
    exact absurd hdead hsteps.alive

/-- `Commit` is not going to wait for an entry that does not arrive. -/
def NoWait (n : ℕ) (s : System) : Prop := s.disk.wal.lastIndex = n ∨ ¬s.MaySwitch

theorem NoWait.alike (h : NoWait n s) (ha : Alike s t) : NoWait n t := by
  refine h.imp (fun hl => by rw [ha.disk]; exact hl) fun hm ht => hm (ha.symm.maySwitch ht)

theorem comes_next {P : System → Prop}
    (hproc : ∀ s f, Stage n p s → NoWait n s → ∃ t, s.step (.proceed f) = some t ∧ t.Comes P)
    (hs : Stage n p s) (hw : NoWait n s) : s.Comes P := by
  refine comes_of_proceed (A := fun s => Stage n p s ∧ NoWait n s) ?_
    (fun s f h => hproc s f h.1 h.2) ⟨hs,hw⟩
  rintro s t a ⟨h,hw⟩ ha hstep
  obtain ⟨ht,hlast⟩ := h.step ha hstep
  exact ⟨ht,hw.imp (fun hl => hlast.trans hl) fun hm hs => hm (hs.of_step ha hstep)⟩

theorem joinErrors_some (e : String) (err : Option String) :
    ∃ e', joinErrors (some e) err = some e' := by
  cases err <;> exact ⟨_,rfl⟩

variable {v : ℕ} {e : String} {m : MultiTree} {err : Option String} {entry : WalEntry}

theorem comes_pruning (hs : s.Ok) (hdb : s.db = some db) (hphase : db.phase = .pruning v (some e)) :
    s.Comes (Returned .commit Reply.IsError) := by
  refine comes_of_stage (A := fun s => s.Ok ∧ ∃ db, s.db = some db ∧
    db.phase = .pruning v (some e)) ?_ ?_ ?_ ⟨hs,db,hdb,hphase⟩
  · rintro s t a ⟨hok,db,hdb,hphase⟩ ha hstep
    obtain ⟨db',hdb',hstay⟩ := background_db hok ha hdb hstep
    exact ⟨hok.step hstep,db',hdb',by rw [hstay.phase,hphase]⟩
  · rintro s t f ⟨hok,db,hdb,hphase⟩ hstep
    simp only [step_proceed hdb,proceed,hphase] at hstep
    split at hstep <;> cases hstep
    exact returned_ret trivial
  · rintro s ⟨hok,db,hdb,hphase⟩
    cases hp : s.pruner with
    | none => exact ⟨.proceed none,_,trivial,by simp only [step_proceed hdb,proceed,hphase,hp]; rfl⟩
    | some p => exact ⟨.prune,_,trivial,by simp [System.step,hp]; rfl⟩

theorem comes_switch (hok : (s.switch db v (some e) m).Ok) :
    (s.switch db v (some e) m).Comes (Returned .commit Reply.IsError) := by
  have hret : ∀ db' x, (s.finishCommit db' v (joinErrors (some e) x)).Returned .commit
      Reply.IsError := by
    intro db' x
    obtain ⟨e',he'⟩ := joinErrors_some e x
    rw [he']
    exact returned_ret trivial
  unfold switch at hok ⊢
  split
  · exact .now (hret _ _)
  · rename_i m₁ hc
    rw [hc] at hok
    split
    · exact .now (hret _ _)
    · rename_i m₂ ha
      simp only [ha] at hok
      exact comes_pruning hok rfl rfl

theorem Stage.waits (h : Stage n (fun phase _ => phase = .waiting v err m) s) : Waits n s := by
  obtain ⟨db,c,hdb,-,-,hpos,hphase⟩ := h.db
  exact ⟨h.ok,db,v,err,m,hdb,hphase,hpos⟩

theorem comes_waiting (hs : Stage n (fun phase _ => phase = .waiting v (some e) m) s)
    (hlast : s.disk.wal.lastIndex = n) : s.Comes (Returned .commit Reply.IsError) := by
  refine comes_of_proceed (A := fun s =>
    Stage n (fun phase _ => phase = .waiting v (some e) m) s ∧ s.disk.wal.lastIndex = n)
    ?_ ?_ ⟨hs,hlast⟩
  · rintro s t a ⟨h,hlast⟩ ha hs
    obtain ⟨ht,hl⟩ := h.step ha hs
    exact ⟨ht,hl.trans hlast⟩
  · rintro s f ⟨h,hlast⟩
    obtain ⟨db₁,hdb₁,hguard⟩ := h.waits.caught_iff.mpr hlast
    obtain ⟨db,c,hdb,-,-,-,hphase⟩ := h.db
    cases hdb.symm.trans hdb₁
    have hstep : s.step (.proceed f) = some (s.switch db₁ v (some e) m) := by
      simp only [step_proceed hdb,proceed,hphase,if_pos hguard]
    exact ⟨_,hstep,comes_switch (h.ok.step hstep)⟩

theorem comes_checkRewrite (hs : Stage n (fun phase _ => phase = .checkRewrite v (some e)) s)
    (hw : NoWait n s) : s.Comes (Returned .commit Reply.IsError) := by
  refine comes_next (fun s f h hw => ?_) hs hw
  obtain ⟨db,c,hdb,hc,hdead,hpos,hphase⟩ := h.db
  have hstep : s.step (.proceed f) = some (s.checkRewrite db v (some e)) := by
    simp only [step_proceed hdb,proceed,hphase]
  have hok := h.ok.step hstep
  refine ⟨_,hstep,?_⟩
  unfold checkRewrite at hok ⊢
  split
  · exact .now (returned_ret trivial)
  · rename_i r hr
    simp only [hr] at hok
    split
    · exact .now (returned_ret trivial)
    · rename_i m hm
      simp only [hm] at hok
      have hlast : s.disk.wal.lastIndex = n :=
        hw.resolve_right fun hn => hn ⟨s,.refl,db,hdb,r,hr,m,hm⟩
      exact comes_waiting (n := n) ⟨hok,_,c,rfl,hc,hdead,hpos,rfl⟩ hlast
    · exact .now (returned_ret trivial)
    · exact .now (returned_ret trivial)

theorem Stage.checkAsyncCommit (h : Stage n (fun phase _ => phase = .checkAsyncCommit v) s)
    (f : Option ℕ) :
    ∃ t e, s.step (.proceed f) = some t ∧
      Stage n (fun phase _ => phase = .checkRewrite v (some e)) t ∧ Alike s t := by
  obtain ⟨db,c,hdb,hc,hdead,hpos,hphase⟩ := h.db
  obtain ⟨err,herr⟩ := exists_recvQuit hdead
  obtain ⟨e,hstep⟩ : ∃ e, s.step (.proceed f) = some (s.put { db with
      walChan := some { c with writer := .quit }, phase := .checkRewrite v (some e) }) :=
    ⟨_,by
      simp only [step_proceed hdb,proceed,hphase,hc,bind_some,herr,map_some]; rfl⟩
  refine ⟨_,e,hstep,⟨h.ok.step hstep,_,_,rfl,rfl,trivial,hpos,rfl⟩,
    rfl,rfl,db,_,hdb,rfl,rfl,rfl,?_,?_⟩
  · intro x hx
    cases hc.symm.trans hx
    exact hdead
  · rintro x ⟨⟩
    trivial

theorem Stage.send {v : ℕ} {entry : WalEntry}
    (h : Stage n (fun phase c => phase = .sending v entry ∧ c.queue.length < c.size) s)
    (f : Option ℕ) : ∃ t, s.step (.proceed f) = some t ∧
      Stage n (fun phase _ => phase = .checkAsyncCommit v) t ∧ Alike s t := by
  obtain ⟨db,c,hdb,hc,hdead,hpos,hphase,hroom⟩ := h.db
  have hstep : s.step (.proceed f) = some (s.put { db with
      walChan := some { c with queue := c.queue ++ [entry] }
      pendingLog := {}
      phase := .checkAsyncCommit v }) := by
    simp only [step_proceed hdb,proceed,hphase,hc,AsyncCommit.send,if_pos hroom,
      bind_eq_bind,bind_some]
  refine ⟨_,hstep,⟨h.ok.step hstep,_,_,rfl,rfl,hdead,hpos,rfl⟩,
    rfl,rfl,db,_,hdb,rfl,rfl,rfl,?_,?_⟩
  · intro x hx
    cases hc.symm.trans hx
    exact hdead
  · rintro x ⟨⟩
    exact hdead

theorem comes_sending
    (hs : Stage n (fun phase c => phase = .sending v entry ∧ c.queue.length < c.size) s)
    (hw : NoWait n s) : s.Comes (Returned .commit Reply.IsError) := by
  refine comes_next (fun s f h hw => ?_) hs hw
  obtain ⟨t,ht,hstage,ha⟩ := h.send f
  refine ⟨t,ht,comes_next (fun s f h hw => ?_) hstage (hw.alike ha)⟩
  obtain ⟨t,e,ht,hstage,ha⟩ := h.checkAsyncCommit f
  exact ⟨t,ht,comes_checkRewrite hstage (hw.alike ha)⟩

theorem Stage.not_returned (h : Stage n p s) (hp : ∀ phase c, p phase c → phase ≠ .idle) :
    ¬s.Returned call Q := by
  rintro ⟨hidle,-⟩
  obtain ⟨db,c,hdb,-,-,-,hphase⟩ := h.db
  exact hp _ _ hphase (hidle db hdb)

theorem Stage.not_comes (h : Stage n p s) (hp : ∀ phase c, p phase c → phase ≠ .idle)
    (hblocked : ∀ t f, Stage n p t → t.disk.wal.lastIndex = s.disk.wal.lastIndex →
      t.step (.proceed f) = none) : ¬s.Comes (Returned call Q) := by
  refine Inevitably.not_of_closed
    (C := fun t => Stage n p t ∧ t.disk.wal.lastIndex = s.disk.wal.lastIndex)
    (fun t ht => ht.1.not_returned hp) ?_ ⟨h,rfl⟩
  rintro t u ⟨ht,hlast⟩ ⟨a,ha,hstep⟩
  cases a with
  | load o | call c | crash keep | interrupt w n keep => exact ha.elim
  | proceed f =>
    rw [hblocked t f ht hlast] at hstep
    cases hstep
  | write f | rewrite ok | prune =>
    obtain ⟨hu,hl⟩ := ht.step (by trivial) hstep
    exact ⟨hu,hl.trans hlast⟩

theorem not_comes_full
    (h : Stage n (fun phase c => phase = .sending v entry ∧ ¬c.queue.length < c.size) s) :
    ¬s.Comes (Returned call Q) := by
  refine h.not_comes (by rintro phase c ⟨rfl,-⟩; simp) ?_
  intro t f ht _
  obtain ⟨db,c,hdb,hc,hdead,-,hphase,hfull⟩ := ht.db
  have halive : ¬(c.size = 0 ∧ c.writer = .receiving) := by
    rintro ⟨-,hw⟩
    rw [hw] at hdead
    exact hdead
  simp [step_proceed hdb,proceed,hphase,hc,AsyncCommit.send,hfull,halive]

theorem not_comes_waiting (h : Stage n (fun phase _ => phase = .waiting v err m) s)
    (hlast : s.disk.wal.lastIndex ≠ n) : ¬s.Comes (Returned call Q) := by
  refine h.not_comes (by rintro phase c rfl; simp) ?_
  intro t f ht hl
  obtain ⟨db,c,hdb,-,-,-,hphase⟩ := ht.db
  have hguard : ¬db.committedVersion t.disk.wal = db.mtree.version := fun hg =>
    hlast (hl ▸ ht.waits.caught_iff.mp ⟨db,hdb,hg⟩)
  simp [step_proceed hdb,proceed,hphase,hguard]

theorem Comes.step (h : s.Comes (Returned call Q)) (hn : ¬s.Returned call Q) {a : Act}
    (ha : a.Internal) (hstep : s.step a = some t) : t.Comes (Returned call Q) :=
  Inevitably.along h (.single ⟨hn,a,ha,hstep⟩)

theorem Comes.background (h : s.Comes (Returned call Q)) (hs : Stage n p s)
    (hp : ∀ phase c, p phase c → phase ≠ .idle)
    (hrun : Run System.step (fun _ a => a.Background) s t) :
    t.Comes (Returned call Q) ∧ Stage n p t ∧ t.disk.wal.lastIndex = s.disk.wal.lastIndex := by
  induction hrun with
  | refl => exact ⟨h,hs,rfl⟩
  | tail _ hm ih =>
    obtain ⟨hc,hst,hl⟩ := ih
    obtain ⟨a,ha,hstep⟩ := hm
    have hint : a.Internal := by cases a <;> trivial
    obtain ⟨hst',hl'⟩ := hst.step ha hstep
    exact ⟨hc.step (hst.not_returned hp) hint hstep,hst',hl'.trans hl⟩

/-- `Commit` goes into its wait loop once new trees have been delivered. -/
theorem Stage.checkRewrite (h : Stage n (fun phase _ => phase = .checkRewrite v err) s)
    (hd : s.Delivered) :
    ∃ t m, s.step (.proceed none) = some t ∧
      Stage n (fun phase _ => phase = .waiting v err m) t ∧ t.disk = s.disk := by
  obtain ⟨db,c,hdb,hc,hdead,hpos,hphase⟩ := h.db
  obtain ⟨db₁,hdb₁,r,hr,m,hm⟩ := hd
  cases hdb.symm.trans hdb₁
  have hstep : s.step (.proceed none) =
      some (s.put { db with rewriter := none, phase := .waiting v err m }) := by
    rw [mem_def] at hr
    simp only [step_proceed hdb,proceed,hphase,System.checkRewrite,hr,hm]
  exact ⟨_,m,hstep,⟨h.ok.step hstep,_,c,rfl,hc,hdead,hpos,rfl⟩,rfl⟩

theorem not_comes_switch
    (hs : Stage n (fun phase c => phase = .sending v entry ∧ c.queue.length < c.size) s)
    (hm : s.MaySwitch) (hlast : s.disk.wal.lastIndex ≠ n) : ¬s.Comes (Returned call Q) := by
  intro h
  obtain ⟨t,hrun,hd⟩ := hm
  obtain ⟨ht,hst,hl⟩ := h.background hs (by rintro phase c ⟨rfl,-⟩; simp) hrun
  obtain ⟨t₁,hstep₁,hst₁,ha₁⟩ := hst.send none
  have ht₁ := ht.step (hst.not_returned (by rintro phase c ⟨rfl,-⟩; simp)) (by trivial) hstep₁
  obtain ⟨t₂,e,hstep₂,hst₂,ha₂⟩ := hst₁.checkAsyncCommit none
  have ht₂ := ht₁.step (hst₁.not_returned (by rintro phase c rfl; simp)) (by trivial) hstep₂
  obtain ⟨t₃,m,hstep₃,hst₃,hdisk⟩ := hst₂.checkRewrite (ha₂.delivered (ha₁.delivered hd))
  have ht₃ := ht₂.step (hst₂.not_returned (by rintro phase c rfl; simp)) (by trivial) hstep₃
  refine not_comes_waiting hst₃ ?_ ht₃
  rwa [hdisk,ha₂.disk,ha₁.disk,hl]

theorem stage_commit (hs : s.Ok) (hdb : s.db = some db) (hidle : db.phase = .idle)
    (hc : db.walChan = some c) (hdead : c.writer.Dead) (hro : db.opts.readOnly = false)
    (hsave : db.mtree.saveVersion true = (m,.ok v)) :
    ∃ entry, Stage (db.mtree.position+1) (fun phase c' => phase = .sending v entry ∧ c' = c)
      (s.startCall db .commit) ∧ Alike s (s.startCall db .commit) := by
  have hok := (starts_startCall s db .commit).ok hs (hs.db db hdb) hidle
  have ha := advances_saveVersion db.mtree true
  rw [hsave] at ha
  have hbuf := ((hs.db db hdb).base.chan c hc).2
  obtain ⟨entry,hstart⟩ : ∃ entry, s.startCall db .commit =
      { s with trace := s.trace ++ [Event.committed entry] }.put { db with
        mtree := m, walChan := some c, phase := .sending v entry } :=
    ⟨_,by simp only [startCall,commit,hro,hsave,hc,if_pos hbuf,Bool.false_eq_true,if_false,
      getD_some]; rfl⟩
  rw [hstart] at hok ⊢
  refine ⟨entry,⟨hok,_,c,rfl,rfl,hdead,ha.position_eq (hs.db db hdb).base.sane,rfl,rfl⟩,
    rfl,rfl,db,_,hdb,rfl,rfl,ha.initialVersion,?_,?_⟩
  · intro x hx
    cases hc.symm.trans hx
    exact hdead
  · rintro x ⟨⟩
    exact hdead

end System

theorem AsyncCommit.Steps.room {c c' : AsyncCommit} {wal wal' : IndexedLog WALEntry}
    {failure : Option ℕ} (h : Steps wal failure c c' wal') (hok : c.Ok) (hopen : c.closed = false)
    (hroom : c.queue.length < c.size ∨ c.writer = .receiving) :
    c'.queue.length < c'.size ∨ c'.writer = .receiving := by
  have hfits := hok.fits
  cases h with
  | receive hw hq | collect hw hq =>
    rw [hq,List.length_cons] at hfits
    left
    simp only
    omega
  | quit hw hq hclosed =>
    rw [hopen] at hclosed
    cases hclosed
  | write => exact .inr rfl
  | count hw | collected hw | read hw | refuse hw =>
    refine .inl (hroom.resolve_right ?_)
    rw [hw]
    simp
  | fail _ hw =>
    refine .inl (hroom.resolve_right ?_)
    rcases hw with ⟨_,hw⟩ | ⟨_,hw⟩ <;> rw [hw] <;> simp

namespace System

variable {s t : System} {db : DB}

/-- A call is running and no snapshot is being rewritten. -/
def Quiet (p : Phase → Prop) (s : System) : Prop :=
  s.Ok ∧ ∃ db, s.db = some db ∧ db.rewriter = none ∧ p db.phase

theorem comes_quiet {P : System → Prop} {p : Phase → Prop}
    (hproc : ∀ s f, Quiet p s → ∃ t, s.step (.proceed f) = some t ∧ t.Comes P)
    (hs : Quiet p s) : s.Comes P := by
  refine comes_of_proceed ?_ hproc hs
  rintro s t a ⟨hok,db,hdb,hr,hp⟩ ha hstep
  obtain ⟨db',hdb',hstay⟩ := background_db hok ha hdb hstep
  have hr' := hstay.rewriter
  rw [hr,isSome_none,isSome_eq_false_iff,isNone_iff_eq_none] at hr'
  exact ⟨hok.step hstep,db',hdb',hr',by rw [hstay.phase]; exact hp⟩

theorem returned_finishCommit {v : ℕ} {err : Option String} :
    (s.finishCommit db v err).Returned .commit fun _ => True := by
  cases err <;> exact returned_ret trivial

theorem comes_quiet_check {v : ℕ} (hs : Quiet (fun phase => phase = .checkAsyncCommit v) s) :
    s.Comes (Returned .commit fun _ => True) := by
  refine comes_quiet ?_ hs
  rintro s f ⟨hok,db,hdb,hr,hphase⟩
  obtain ⟨db',err,hstep,hr',hphase'⟩ : ∃ db' err, s.step (.proceed f) = some (s.put db') ∧
      db'.rewriter = none ∧ db'.phase = .checkRewrite v err := by
    simp only [step_proceed hdb,proceed,hphase]
    split <;> exact ⟨_,_,rfl,hr,rfl⟩
  refine ⟨_,hstep,comes_quiet (p := fun phase => phase = .checkRewrite v err) ?_
    ⟨hok.step hstep,db',rfl,hr',hphase'⟩⟩
  rintro s f ⟨-,db,hdb,hr,hphase⟩
  exact ⟨s.finishCommit db v err,by simp only [step_proceed hdb,proceed,hphase,checkRewrite,hr],
    .now returned_finishCommit⟩

theorem comes_quiet_writing {v : ℕ} {entry : WalEntry}
    (hs : Quiet (fun phase => phase = .writing v entry) s) :
    s.Comes (Returned .commit fun _ => True) := by
  refine comes_quiet ?_ hs
  rintro s f ⟨hok,db,hdb,hr,hphase⟩
  cases f with
  | some k =>
    exact ⟨_,by simp only [step_proceed hdb,proceed,hphase]; rfl,.now (returned_ret trivial)⟩
  | none =>
    cases hw : s.disk.wal.writeBatch (writeEntry s.disk.wal.lastIndex [] entry) with
    | none =>
      exact ⟨s.ret db .commit (.error "out of order"),
        by simp only [step_proceed hdb,proceed,hphase,hw],.now (returned_ret trivial)⟩
    | some wal =>
      have hstep : s.step (.proceed none) = some ({ s with disk := { s.disk with wal } }.put
          { db with pendingLog := {}, phase := .checkAsyncCommit v }) := by
        simp only [step_proceed hdb,proceed,hphase,hw]
      exact ⟨_,hstep,comes_quiet_check ⟨hok.step hstep,_,rfl,hr,rfl⟩⟩

/-- `Commit` is at its send and is going to find room in the channel. -/
def Sends (v : ℕ) (entry : WalEntry) (s : System) : Prop :=
  s.Ok ∧ ∃ db c, s.db = some db ∧ db.rewriter = none ∧ db.phase = .sending v entry ∧
    db.walChan = some c ∧ (c.queue.length < c.size ∨ c.writer = .receiving)

theorem comes_sends {v : ℕ} {entry : WalEntry} (hs : s.Sends v entry) :
    s.Comes (Returned .commit fun _ => True) := by
  refine Comes.trans (comes_of_stage (A := Sends v entry) ?_ ?_ ?_ hs)
  · rintro s t a ⟨hok,db,c,hdb,hr,hphase,hc,hroom⟩ ha hstep
    obtain ⟨db',hdb',hstay⟩ := background_db hok ha hdb hstep
    have hr' := hstay.rewriter
    rw [hr,isSome_none,isSome_eq_false_iff,isNone_iff_eq_none] at hr'
    have hphase' := hstay.phase.trans hphase
    refine ⟨hok.step hstep,db',?_⟩
    rcases hstay.chan with ⟨hc',-⟩ | ⟨c₁,c',f,-,hc₁,hc',hsteps⟩
    · exact ⟨c,hdb',hr',hphase',hc'.trans hc,hroom⟩
    · cases hc.symm.trans hc₁
      have hopen := (hok.db db hdb).phase
      rw [DB.PhaseOk,hphase] at hopen
      exact ⟨c',hdb',hr',hphase',hc',hsteps.room ((hok.db db hdb).base.chan c hc).1
        (hopen.1 c hc) hroom⟩
  · rintro s t f ⟨hok,db,c,hdb,hr,hphase,hc,hroom⟩ hstep
    have hok' := hok.step hstep
    simp only [step_proceed hdb,proceed,hphase,hc,bind_eq_bind,bind_some,
      bind_eq_some_iff] at hstep
    obtain ⟨c',-,hstep⟩ := hstep
    cases hstep
    exact comes_quiet_check ⟨hok',_,rfl,hr,rfl⟩
  · rintro s ⟨hok,db,c,hdb,hr,hphase,hc,hroom⟩
    cases hsend : c.send entry with
    | some c' =>
      exact ⟨.proceed none,_,trivial,by
        simp only [step_proceed hdb,proceed,hphase,hc,hsend,bind_eq_bind,bind_some]; rfl⟩
    | none =>
      -- The channel is full, and the goroutine is about to receive from it.
      unfold AsyncCommit.send at hsend
      split at hsend
      · cases hsend
      · rename_i hfull
        have hw := hroom.resolve_left hfull
        have hne : c.flight ≠ [] := by
          rw [AsyncCommit.flight_of_alive (by rw [hw]; exact id),hw,Writer.items,List.nil_append]
          rintro hq
          simp [hq,hw] at hsend hfull
          exact hsend hfull
        obtain ⟨x,hx⟩ := AsyncCommit.exists_step ((hok.db db hdb).base.chan c hc).1 hne s.disk.wal
        obtain ⟨t,ht⟩ := step_write hdb hc hx
        exact ⟨.write none,t,trivial,ht⟩

theorem ends_commit_of_quiet (hs : s.Ok) (hdb : s.db = some db) (hidle : db.phase = .idle)
    (hr : db.rewriter = none)
    (hroom : ∀ c ∈ db.walChan, c.queue.length < c.size ∨ c.writer = .receiving) :
    s.Ends .commit := by
  have hok := (starts_startCall s db .commit).ok hs (hs.db db hdb) hidle
  refine ⟨_,step_call hdb hidle _,?_⟩
  simp only [startCall,commit] at hok ⊢
  split
  · exact .now (returned_ret trivial)
  · rename_i hro
    rw [if_neg hro] at hok
    split
    · exact .now (returned_ret trivial)
    · rename_i m v hsave
      simp only [hsave] at hok
      split
      · rename_i hbuf
        rw [if_pos hbuf] at hok
        refine comes_sends ⟨hok,_,_,rfl,hr,rfl,rfl,?_⟩
        cases hc : db.walChan with
        | none => exact .inr rfl
        | some c => exact hroom c hc
      · rename_i hbuf
        rw [if_neg hbuf] at hok
        exact comes_quiet_writing ⟨hok,_,rfl,hr,rfl⟩

variable {c : AsyncCommit}

/-- A goroutine that has failed stays as it is. -/
theorem steps_of_dead {w : Writer} (hw : w.Dead) {c c' : AsyncCommit}
    {wal wal' : IndexedLog WALEntry} {f : Option ℕ} (h : AsyncCommit.Steps wal f c c' wal')
    (hc : c.writer = w) : c'.writer = w :=
  absurd (hc ▸ hw) h.alive

/-- The error that `walQuit` gives is reported if no call has taken it before. -/
theorem isError_recvQuit {err : Option String}
    (h : recvQuit c = some err) : (Reply.ofError err).IsError ↔ c.writer ≠ .quit := by
  unfold recvQuit at h
  split at h <;> cases h <;> rename_i hw <;> simp [hw,Reply.ofError,Reply.IsError]

section
variable {call : Call} (hcall : call = .waitAsyncCommit ∨ call = .close) (hs : s.Ok)
  (hdb : s.db = some db) (hidle : db.phase = .idle)
include hcall hs hdb hidle

theorem fails_quit_iff (hc : db.walChan = some c) (hdead : c.writer.Dead) :
    s.Fails call ↔ c.writer ≠ .quit := by
  have hends : s.EndsWith call fun r => r.IsError ↔ c.writer ≠ .quit :=
    endsWith_quit (W := fun w => w = c.writer) hcall hs hdb hidle hc rfl
      (steps_of_dead hdead) fun c' err hw herr => by
        rw [← hw]
        exact isError_recvQuit herr
  constructor
  · intro hf hq
    exact hends.not_endsWith (fun r hr hE => hr.mp hE hq) hf
  · intro hq
    exact hends.mono fun r hr => hr.mpr hq

theorem ends_quit : s.Ends call := by
  cases hc : db.walChan with
  | none =>
    refine ⟨_,step_call hdb hidle _,?_⟩
    rcases hcall with rfl | rfl <;> simp only [startCall,hc]
    · exact .now (returned_ret trivial)
    · exact comes_closeRewrite hs.disk (hs.db db hdb).base hc trivial
  | some c =>
    exact endsWith_quit (W := fun _ => True) hcall hs hdb hidle hc trivial
      (fun _ _ => trivial) fun _ _ _ _ => trivial

end

/-- `Commit` returns at once, or its entry fits into the channel and it is not going to wait for
a log that nobody writes. -/
def CommitReturns (s : System) (db : DB) (c : AsyncCommit) : Prop :=
  db.opts.readOnly = true ∨ (∃ e, (db.mtree.saveVersion true).2 = .error e) ∨
    c.queue.length < c.size ∧ (s.disk.wal.lastIndex = db.mtree.position+1 ∨ ¬s.MaySwitch)

section
variable (hs : s.Ok) (hdb : s.db = some db) (hidle : db.phase = .idle) (hc : db.walChan = some c)
  (hdead : c.writer.Dead)
include hs hdb hidle hc hdead

theorem fails_commit (h : s.CommitReturns db c) : s.Fails .commit := by
  refine ⟨_,step_call hdb hidle _,?_⟩
  rcases h with hro | ⟨e,he⟩ | ⟨hroom,hw⟩
  · simp only [startCall,commit,hro,if_true]
    exact .now (returned_ret trivial)
  · simp only [startCall,commit]
    split
    · exact .now (returned_ret trivial)
    · split
      · exact .now (returned_ret trivial)
      · rename_i hsave
        rw [hsave] at he
        cases he
  · cases hro : db.opts.readOnly with
    | true =>
      simp only [startCall,commit,hro,if_true]
      exact .now (returned_ret trivial)
    | false =>
      cases hsave : db.mtree.saveVersion true with
      | mk m r =>
        cases r with
        | error e =>
          simp only [startCall,commit,hro,hsave,Bool.false_eq_true,if_false]
          exact .now (returned_ret trivial)
        | ok v =>
          obtain ⟨entry,⟨hok,db',c',hdb',hc',hdead',hpos,hphase,rfl⟩,ha⟩ :=
            stage_commit hs hdb hidle hc hdead hro hsave
          have hn : NoWait (db.mtree.position+1) s := hw
          exact comes_sending ⟨hok,db',c',hdb',hc',hdead',hpos,hphase,hroom⟩ (hn.alike ha)

theorem commitReturns_of_ends (h : s.Ends .commit) : s.CommitReturns db c := by
  by_contra hn
  simp only [CommitReturns,not_or,not_and,not_exists,not_not] at hn
  obtain ⟨hro,hsave,hn⟩ := hn
  rw [Bool.not_eq_true] at hro
  obtain ⟨t,ht,hcomes⟩ := h
  cases (step_call hdb hidle _).symm.trans ht
  cases hsv : db.mtree.saveVersion true with
  | mk m r =>
    rw [hsv] at hsave
    cases r with
    | error e => exact hsave e rfl
    | ok v =>
      obtain ⟨entry,⟨hok,db',c',hdb',hc',hdead',hpos,hphase,rfl⟩,ha⟩ :=
        stage_commit hs hdb hidle hc hdead hro hsv
      by_cases hroom : c'.queue.length < c'.size
      · obtain ⟨hlast,hm⟩ := hn hroom
        exact not_comes_switch ⟨hok,db',c',hdb',hc',hdead',hpos,hphase,hroom⟩ (ha.maySwitch hm)
          (by rwa [ha.disk]) hcomes
      · exact not_comes_full ⟨hok,db',c',hdb',hc',hdead',hpos,hphase,hroom⟩ hcomes

end

/-- `WaitAsyncCommit` and `Close` always end, and `Commit` does when no snapshot is being
rewritten and the channel has room. After a failure of the goroutine both of them report it
unless a `Commit` has taken the error before, and `Commit` ends, with an error, exactly when the
channel has room and it is not going to wait for the log. -/
theorem failed_write_reported (hs : s.Reachable) (hdb : s.db = some db)
    (hidle : db.phase = .idle) :
    s.Ends .waitAsyncCommit ∧ s.Ends .close ∧
      (db.rewriter = none →
        (∀ c ∈ db.walChan, c.queue.length < c.size ∨ c.writer = .receiving) → s.Ends .commit) ∧
      ∀ c, db.walChan = some c → c.writer.Dead →
        (s.Fails .waitAsyncCommit ↔ c.writer ≠ .quit) ∧ (s.Fails .close ↔ c.writer ≠ .quit) ∧
        (s.Ends .commit ↔ s.CommitReturns db c) ∧ (s.Fails .commit ↔ s.CommitReturns db c) := by
  have hok := hs.ok
  refine ⟨ends_quit (.inl rfl) hok hdb hidle,ends_quit (.inr rfl) hok hdb hidle,
    ends_commit_of_quiet hok hdb hidle,fun c hc hdead => ?_⟩
  have hends := commitReturns_of_ends hok hdb hidle hc hdead
  have hfails := fails_commit hok hdb hidle hc hdead
  exact ⟨fails_quit_iff (.inl rfl) hok hdb hidle hc hdead,
    fails_quit_iff (.inr rfl) hok hdb hidle hc hdead,
    ⟨hends,fun h => (hfails h).mono fun _ _ => trivial⟩,
    fun h => hends (h.mono fun _ _ => trivial),hfails⟩

/-- The first write of a database with a channel of the given size fails. -/
def failedWriteActs (size : ℤ) : List Act :=
  [.load { createIfMissing := true, asyncCommitBuffer := size }] ++ commitActs ++
    List.replicate (if size = 0 then 2 else 3) (.write none) ++ [.write (some 0)]

theorem failed_write_reported_first : ∃ (s : System) (db : DB) (c : AsyncCommit) (e : String),
    s.Reachable ∧ s.db = some db ∧ db.phase = .idle ∧ db.walChan = some c ∧
      c.writer = .failing e ∧ s.Fails .waitAsyncCommit ∧ s.Fails .close ∧ s.Ends .commit := by
  have hex : (exec System.step (fun _ _ => True) (failedWriteActs 2) {}).any (fun s =>
      ∃ db ∈ s.db, db.phase = .idle ∧ db.rewriter = none ∧ ∃ c ∈ db.walChan,
        c.writer = .failing "input/output error" ∧ c.queue.length < c.size) = true := by
    decide +kernel
  obtain ⟨s,hs,hex⟩ := Run.exists_of_exec hex
  obtain ⟨db,hdb,hidle,hr,c,hc,hw,hroom⟩ := of_decide_eq_true hex
  obtain ⟨-,-,hcommit,hdead⟩ := failed_write_reported hs hdb hidle
  obtain ⟨hwait,hclose,-⟩ := hdead c hc (by rw [hw]; trivial)
  refine ⟨s,db,c,_,hs,hdb,hidle,hc,hw,hwait.mpr (by simp [hw]),hclose.mpr (by simp [hw]),
    hcommit hr fun c' hc' => ?_⟩
  cases hc.symm.trans hc'
  exact .inl hroom

/-- With an unbuffered channel the next `Commit` blocks forever at its send. -/
theorem commit_hangs_after_failed_write : ∃ (s : System) (db : DB) (c : AsyncCommit) (e : String),
    s.Reachable ∧ s.db = some db ∧ db.phase = .idle ∧ db.walChan = some c ∧
      c.writer = .failing e ∧ ¬s.Ends .commit := by
  have hex : (exec System.step (fun _ _ => True) (failedWriteActs 0) {}).any (fun s =>
      ∃ db ∈ s.db, db.phase = .idle ∧ db.opts.readOnly = false ∧
        (db.mtree.saveVersion true).2 = .ok 2 ∧ ∃ c ∈ db.walChan,
        c.writer = .failing "input/output error" ∧ c.size = 0) = true := by
    decide +kernel
  obtain ⟨s,hs,hex⟩ := Run.exists_of_exec hex
  obtain ⟨db,hdb,hidle,hro,hsave,c,hc,hw,hsize⟩ := of_decide_eq_true hex
  refine ⟨s,db,c,_,hs,hdb,hidle,hc,hw,fun hends => ?_⟩
  rcases commitReturns_of_ends (Reachable.ok hs) hdb hidle hc (by rw [hw]; trivial) hends with
    h | ⟨e,he⟩ | ⟨hroom,-⟩
  · rw [hro] at h
    cases h
  · rw [hsave] at he
    cases he
  · omega

end System

end Memiavl
