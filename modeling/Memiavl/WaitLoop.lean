import Memiavl.WalOrder

/-! Progress of the goroutines, and the loop in which `Commit` waits for the log before it
switches to a new snapshot. -/
namespace Memiavl

open List Option Transition

/-- Steps of the goroutines. -/
def Act.Background : Act → Prop
  | .write _ | .rewrite _ | .prune => True
  | _ => False

def Act.Writes : Act → Prop
  | .write (some _) | .proceed (some _) => False
  | _ => True

def Writer.rank : Writer → ℕ
  | .receiving => 1
  | .counting _ => 5
  | .collecting _ _ => 4
  | .reading _ => 3
  | .writing _ => 2
  | .failing _ | .quit => 0

def AsyncCommit.rank (c : AsyncCommit) : ℕ := 6*c.queue.length+c.writer.rank

theorem AsyncCommit.Steps.rank_lt {c c' : AsyncCommit} {wal wal' : IndexedLog WALEntry}
    {failure : Option ℕ} (h : Steps wal failure c c' wal') : c'.rank < c.rank := by
  cases h with
  | receive hw hq | collect hw hq =>
    simp only [rank,hw,hq,Writer.rank,length_cons]
    omega
  | quit hw | count hw | collected hw | read hw | write hw | refuse hw =>
    simp only [rank,hw,Writer.rank]
    omega
  | fail _ hw => rcases hw with ⟨_,hw⟩ | ⟨_,hw⟩ <;> simp only [rank,hw,Writer.rank] <;> omega

def RewriteStage.rank : RewriteStage → ℕ
  | .writing => 7
  | .renaming => 6
  | .linking => 5
  | .switching => 4
  | .loading => 3
  | .catching _ => 2
  | .sending _ => 1
  | .finished => 0

theorem System.Rewrites.rank_lt {d d' : Disk} {r r' : Rewriter} (h : Rewrites d r d' r') :
    r'.stage.rank < r.stage.rank := by
  cases h with
  | failed hs => cases hr : r.stage <;> simp [RewriteStage.rank,hr] at hs ⊢
  | wrote hs | cancelled hs | renamed hs _ | linked hs _ | switched hs _ | notLoaded hs _
  | loaded hs _ | caughtUp hs => simp [RewriteStage.rank,hs]

/-- The list of snapshots to be removed is not known before the first step. -/
def PruneStage.starts : PruneStage → ℕ
  | .starting => 1
  | .removing _ => 0

def PruneStage.rank : PruneStage → ℕ
  | .starting => 0
  | .removing vs => vs.length+1

namespace System

variable {s s' : System} {db : DB}

def pruneStarts (s : System) : ℕ := (s.pruner.map fun p => p.stage.starts).getD 0

def pruneRank (s : System) : ℕ := (s.pruner.map fun p => p.stage.rank).getD 0

def chanRank (s : System) : ℕ :=
  ((s.db.bind DB.walChan).map AsyncCommit.rank).getD 0

def rewriteRank (s : System) : ℕ :=
  ((s.db.bind DB.rewriter).map fun r => r.stage.rank).getD 0

/-- How much the goroutines still have to do. -/
def work (s : System) : ℕ ×ₗ ℕ :=
  toLex (s.pruneStarts,s.chanRank+s.rewriteRank+s.pruneRank)

theorem Prunes.work_lt {p : Pruner} (h : Prunes s p s') (hp : s.pruner = some p) :
    s'.work < s.work := by
  rw [work,work,chanRank,rewriteRank,h.same.2.1,← chanRank,← rewriteRank,Prod.Lex.toLex_lt_toLex]
  rw [pruneStarts,pruneStarts,pruneRank,pruneRank,hp]
  cases h with
  | ended => cases hstage : p.stage <;> simp [hstage,PruneStage.starts,PruneStage.rank]
  | listed hstage _ _ | removed hstage | truncated hstage _ | panics hstage _ =>
    simp [hstage,PruneStage.starts,PruneStage.rank]

/-- Every step of a goroutine brings them closer to their end. -/
theorem work_lt {a : Act} (ha : a.Background) (h : s.step a = some s') : s'.work < s.work := by
  cases turns_of_step h with
  | loaded _ _ _ | notLoaded _ _ _ | starts _ _ _ | proceeds _ _ | crashed keep
  | interrupted _ => exact ha.elim
  | writes hdb hc hw =>
    have hlt := (AsyncCommit.steps_of_step hw).rank_lt
    rw [work,work,Prod.Lex.toLex_lt_toLex]
    right
    simp only [pruneStarts,chanRank,rewriteRank,pruneRank,hdb,hc,bind_some,map_some,
      getD_some,true_and]
    omega
  | rewrites hdb hr hstep =>
    have hlt := hstep.rank_lt
    rw [work,work,Prod.Lex.toLex_lt_toLex]
    right
    simp only [pruneStarts,chanRank,rewriteRank,pruneRank,hdb,hr,bind_some,map_some,
      getD_some,true_and]
    omega
  | prunes hp hstep => exact hstep.work_lt hp

/-- What a step of a goroutine leaves of the open database. -/
structure Stays (a : Act) (s : System) (db : DB) (s' : System) (db' : DB) : Prop where
  mtree : db'.mtree = db.mtree
  phase : db'.phase = db.phase
  opts : db'.opts = db.opts
  trace : s'.trace = s.trace
  rewriter : db'.rewriter.isSome = db.rewriter.isSome
  chan : db'.walChan = db.walChan ∧ s'.disk.wal.TruncationOf s.disk.wal ∨
    ∃ c c' failure, a = .write failure ∧ db.walChan = some c ∧ db'.walChan = some c' ∧
      AsyncCommit.Steps s.disk.wal failure c c' s'.disk.wal

theorem background_db {a : Act} (hs : s.Ok) (ha : a.Background) (hdb : s.db = some db)
    (h : s.step a = some s') : ∃ db', s'.db = some db' ∧ Stays a s db s' db' := by
  cases turns_of_step h with
  | loaded _ _ _ | notLoaded _ _ _ | starts _ _ _ | proceeds _ _ | crashed keep
  | interrupted _ => exact ha.elim
  | @writes failure _ c c' _ hdb₁ hc hw =>
    cases hdb.symm.trans hdb₁
    exact ⟨_,rfl,rfl,rfl,rfl,rfl,rfl,
      .inr ⟨c,c',failure,rfl,hc,rfl,AsyncCommit.steps_of_step hw⟩⟩
  | rewrites hdb₁ hr hstep =>
    cases hdb.symm.trans hdb₁
    have hwal := (hstep.sane hs.disk ((hs.db _ hdb).base.rewriter _ hr)).2.2
    refine ⟨_,rfl,rfl,rfl,rfl,rfl,by rw [hr]; rfl,.inl ⟨rfl,?_⟩⟩
    simp only [hwal]
    exact .refl _
  | prunes _ hstep =>
    obtain ⟨hwal,hdb',htrace⟩ := hstep.same
    exact ⟨db,by rw [hdb',hdb],rfl,rfl,rfl,htrace,rfl,.inl ⟨rfl,hwal⟩⟩

end System

theorem consecutive_of_length {es : List WalEntry} {a n : ℕ}
    (hsorted : (es.map WalEntry.index).Pairwise (· < ·)) (hlo : ∀ e ∈ es, a < e.index)
    (hhi : ∀ e ∈ es, e.index ≤ a+n) (hlen : es.length = n) : Consecutive (a+1) es := by
  have hsub : es.map WalEntry.index ⊆ List.range' (a+1) n := by
    intro i hi
    obtain ⟨e,he,rfl⟩ := List.mem_map.mp hi
    have := hlo e he
    have := hhi e he
    rw [mem_range'_1]
    omega
  have hnodup : (es.map WalEntry.index).Nodup := hsorted.imp fun h => Nat.ne_of_lt h
  have hperm := (subperm_of_subset hnodup hsub).perm_of_length_le (by simp [hlen])
  rw [Consecutive,hlen]
  exact hperm.eq_of_pairwise (fun _ _ _ _ h h' => by omega) hsorted (pairwise_lt_range' 1)

theorem Consecutive.of_append {first : ℕ} {es es' : List WalEntry}
    (h : Consecutive first (es ++ es')) : Consecutive first es := by
  rw [Consecutive,map_append,length_append,← range'_append_1] at h
  exact (append_inj h (by simp)).1

namespace System

variable {s s' : System} {db : DB}

def Caught (s : System) : Prop :=
  ∃ db ∈ s.db, db.committedVersion s.disk.wal = db.mtree.version

/-- Whatever the goroutines do, as long as no write fails, the loop ends. -/
def LoopEnds (s : System) : Prop :=
  Inevitably
    (Moves System.step fun _ a => a.Background ∧ a.Writes) Caught s

/-- The log does not go beyond index `n`, and the entries it lacks up to there are on their
way. -/
def Due (n : ℕ) (s : System) : Prop :=
  s.disk.wal.lastIndex ≤ n ∧ (beyond s.disk.wal s.flight).length = n-s.disk.wal.lastIndex

/-- `Commit` waits for the entry with index `n`. -/
structure Waits (n : ℕ) (s : System) : Prop where
  ok : s.Ok
  db : ∃ db v err t, s.db = some db ∧ db.phase = .waiting v err t ∧ db.mtree.position = n

namespace Waits

variable {n : ℕ}

theorem step (h : Waits n s) {a : Act} (ha : a.Background) (hstep : s.step a = some s') :
    Waits n s' := by
  obtain ⟨db,v,err,t,hdb,hphase,hpos⟩ := h.db
  obtain ⟨db',hdb',hstay⟩ := background_db h.ok ha hdb hstep
  exact ⟨h.ok.step hstep,db',v,err,t,hdb',by rw [hstay.phase,hphase],by rw [hstay.mtree,hpos]⟩

theorem caught_iff (h : Waits n s) : s.Caught ↔ s.disk.wal.lastIndex = n := by
  obtain ⟨db,v,err,t,hdb,hphase,rfl⟩ := h.db
  have hok := h.ok.db db hdb
  have hp := hok.phase
  rw [DB.PhaseOk,hphase] at hp
  rw [← DB.committedVersion_eq_iff hok.base.sane hp.2.1]
  simp [Caught,hdb]

theorem flight_bound (h : Waits n s) : ∀ e ∈ s.flight, e.index ≤ n := by
  obtain ⟨db,v,err,t,hdb,-,rfl⟩ := h.db
  rw [flight_some hdb]
  exact (h.ok.db db hdb).flight_bound

theorem due_of_lastIndex_eq (h : Waits n s) (hlast : s.disk.wal.lastIndex = n) : s.Due n := by
  refine ⟨hlast.le,?_⟩
  rw [hlast,Nat.sub_self,length_eq_zero_iff,beyond,filter_eq_nil_iff]
  intro e he
  have := h.flight_bound e he
  simp only [decide_eq_true_eq]
  omega

theorem consecutive (h : Waits n s) (hdue : s.Due n) :
    Consecutive (s.disk.wal.lastIndex+1) (beyond s.disk.wal s.flight) := by
  have hmem : ∀ e ∈ beyond s.disk.wal s.flight, e ∈ s.flight ∧ s.disk.wal.lastIndex < e.index := by
    intro e he
    simpa [beyond] using he
  refine consecutive_of_length (h.ok.flight_sorted.sublist (filter_sublist.map _))
    (fun e he => (hmem e he).2) (fun e he => ?_) hdue.2
  have := h.flight_bound e (hmem e he).1
  have := hdue.1
  omega

end Waits

end System

/-- The goroutine is not blocked as long as it has entries to look at. -/
theorem AsyncCommit.exists_step {c : AsyncCommit} (hc : c.Ok) (hne : c.flight ≠ [])
    (wal : IndexedLog WALEntry) : ∃ p, c.step wal none = some p := by
  cases hw : c.writer with
  | receiving =>
    cases hq : c.queue with
    | nil => simp [flight,hw,hq,Writer.items] at hne
    | cons item queue => exact ⟨_,by simp only [step,hw,hq]; rfl⟩
  | counting item | reading entries => exact ⟨_,by simp only [step,hw]; rfl⟩
  | collecting n result =>
    cases n with
    | zero => exact ⟨_,by simp only [step,hw]; rfl⟩
    | succ n =>
      have hn := hc.counted _ _ hw
      cases hq : c.queue with
      | nil => simp [hq] at hn
      | cons item queue => exact ⟨_,by simp only [step,hw,hq]; rfl⟩
  | writing batch =>
    simp only [step,hw]
    split <;> exact ⟨_,rfl⟩
  | failing err | quit => simp [flight,hw,Writer.Dead] at hne

def Phase.waitsFor : Phase → Option ℕ
  | .waiting v _ _ => some v
  | _ => none

theorem Phase.waitsFor_eq_some {phase : Phase} {v : ℕ} (h : phase.waitsFor = some v) :
    ∃ err t, phase = .waiting v err t := by
  cases phase <;> cases h
  exact ⟨_,_,rfl⟩

instance (n : ℕ) (s : System) : Decidable (s.Due n) := inferInstanceAs (Decidable (_ ∧ _))

namespace System.Waits

variable {s s' : System} {n : ℕ}

theorem due_congr (hlast : s'.disk.wal.lastIndex = s.disk.wal.lastIndex)
    (hflight : beyond s.disk.wal s'.flight = beyond s.disk.wal s.flight) :
    s'.Due n ↔ s.Due n := by
  have : beyond s'.disk.wal s'.flight = beyond s.disk.wal s.flight := by
    rw [← hflight,beyond,beyond,hlast]
  rw [Due,Due,this,hlast]

section
variable (h : Waits n s)
include h

theorem due_wrote {es rest : List WalEntry} (hflight : s.flight = es ++ rest)
    (hi : Consecutive (s.disk.wal.lastIndex+1) es)
    (hlast : s'.disk.wal.lastIndex = s.disk.wal.lastIndex+es.length) (hflight' : s'.flight = rest) :
    s'.Due n ↔ s.Due n := by
  by_cases hne : es = []
  · subst hne
    exact due_congr (by simpa using hlast) (by rw [hflight,hflight',nil_append])
  · have hsorted := h.ok.flight_sorted
    rw [hflight] at hsorted
    have hnew : beyond s.disk.wal es = es := by
      rw [beyond,filter_eq_self]
      intro e he
      have := hi.bounds he
      simp only [decide_eq_true_eq]
      omega
    have hrest : beyond s'.disk.wal rest = beyond s.disk.wal rest := by
      refine List.filter_congr fun e he => ?_
      have := hi.lt_of_append hsorted hne he
      rw [decide_eq_decide]
      omega
    have hle : s.disk.wal.lastIndex+es.length ≤ n := by
      have hmem : es.getLast hne ∈ s.flight := by
        rw [hflight]
        exact mem_append_left _ (getLast_mem hne)
      have := h.flight_bound _ hmem
      have := hi.index_getLast (getLast?_eq_some_getLast hne)
      omega
    rw [Due,Due,hflight,hflight',hrest,beyond_append,hnew,length_append,hlast]
    omega

theorem due_refused {c : AsyncCommit} {batch : List (ℕ × WALEntry)} (hflight : s.flight = c.flight)
    (hfresh : c.Fresh s.disk.wal.lastIndex) (hw : c.writer = .writing batch)
    (hi : batch.map Prod.fst ≠ List.range' (s.disk.wal.lastIndex+1) batch.length)
    (hlast : s'.disk.wal = s.disk.wal) (hflight' : s'.flight = []) : s'.Due n ↔ s.Due n := by
  constructor
  · rintro ⟨hle,hlen⟩
    rw [hflight',hlast] at hlen
    rw [hlast] at hle
    exact h.due_of_lastIndex_eq (by simp only [beyond,filter_nil,length_nil] at hlen; omega)
  · intro hdue
    refine absurd ?_ hi
    have hcons := h.consecutive hdue
    rw [hflight,AsyncCommit.flight_of_alive (by rw [hw]; exact id),hw,beyond_append] at hcons
    have hnew : beyond s.disk.wal (Writer.writing batch).items =
        batch.map fun p => ⟨p.1,p.2⟩ := by
      rw [beyond,Writer.items,filter_eq_self]
      simp only [List.mem_map,forall_exists_index,and_imp,forall_apply_eq_imp_iff₂,
        decide_eq_true_eq]
      exact hfresh batch hw
    rw [hnew] at hcons
    simpa [Consecutive,Function.comp_def] using hcons.of_append

theorem due_iff {a : Act} (ha : a.Background) (hw : a.Writes) (hstep : s.step a = some s') :
    s'.Due n ↔ s.Due n := by
  obtain ⟨db,v,err,t,hdb,hphase,-⟩ := h.db
  obtain ⟨db',hdb',hstay⟩ := background_db h.ok ha hdb hstep
  have hheld : db.phase.held = [] := by rw [hphase]; rfl
  have hflight : s.flight = db.chanFlight := by rw [flight_some hdb,flight_of_held_nil hheld]
  have hflight' : s'.flight = db'.chanFlight := by
    rw [flight_some hdb',flight_of_held_nil (by rw [hstay.phase,hheld])]
  rcases hstay.chan with ⟨hc,hwal⟩ | ⟨c,c',failure,rfl,hc,hc',hsteps⟩
  · exact due_congr hwal.lastIndex_eq (by rw [hflight,hflight',chanFlight_congr hc])
  rw [DB.chanFlight,hc,map_some,getD_some] at hflight
  rw [DB.chanFlight,hc',map_some,getD_some] at hflight'
  cases hsteps.effect with
  | moved hf hl => exact due_congr (by rw [hl]) (by rw [hflight,hflight',hf])
  | skipped es rest hf hf' hl =>
    refine due_congr (by rw [hl]) ?_
    rw [hflight,hflight',hf,hf',beyond_append,beyond_append]
    simp [beyond]
  | wrote es rest hf hi hl hf' =>
    exact h.due_wrote (hflight.trans hf) hi (by rw [hl]; simp) (hflight'.trans hf')
  | refused batch e hwr hi hf hl =>
    refine h.due_refused hflight ((h.ok.db _ hdb).base.fresh c hc) hwr hi hl ?_
    rw [hflight',AsyncCommit.flight_of_dead (by rw [hf]; trivial)]
  | failed xs e hsome =>
    obtain ⟨k,rfl⟩ := isSome_iff_exists.mp hsome
    exact hw.elim

theorem exists_move (hdue : s.Due n) (hlast : s.disk.wal.lastIndex ≠ n) :
    ∃ s', s.step (.write none) = some s' := by
  obtain ⟨db,v,err,t,hdb,hphase,-⟩ := h.db
  have hflight : db.chanFlight ≠ [] := by
    intro hnil
    have hlen := hdue.2
    rw [flight_some hdb,flight_of_held_nil (by rw [hphase]; rfl),hnil] at hlen
    have := hdue.1
    simp only [beyond,filter_nil,length_nil] at hlen
    omega
  obtain ⟨c,hc⟩ : ∃ c, db.walChan = some c := by
    cases hc : db.walChan with
    | none => simp [DB.chanFlight,hc] at hflight
    | some c => exact ⟨c,rfl⟩
  have hok := ((h.ok.db db hdb).base.chan c hc).1
  obtain ⟨p,hp⟩ := AsyncCommit.exists_step hok (by simpa [DB.chanFlight,hc] using hflight)
    s.disk.wal
  exact ⟨_,by simp only [System.step,hdb,hc,hp,bind_eq_bind,bind_some]; rfl⟩

/-- What is due arrives. -/
theorem loopEnds (hdue : s.Due n) : s.LoopEnds := by
  by_cases hc : s.Caught
  · exact .now hc
  refine Inevitably.of_rank wellFounded_lt work
    (A := fun s => Waits n s ∧ s.Due n ∧ ¬s.Caught) ?_ ?_ ⟨h,hdue,hc⟩
  · rintro s t ⟨h,hdue,-⟩ ⟨a,⟨ha,hw⟩,hstep⟩
    refine or_iff_not_imp_left.mpr fun hc => ?_
    exact ⟨⟨h.step ha hstep,(h.due_iff ha hw hstep).mpr hdue,hc⟩,work_lt ha hstep⟩
  · rintro s ⟨h,hdue,hc⟩
    obtain ⟨s',hs'⟩ := h.exists_move hdue fun hlast => hc (h.caught_iff.mpr hlast)
    exact ⟨s',.write none,⟨trivial,trivial⟩,hs'⟩

/-- What is not due never becomes so. -/
theorem not_loopEnds (hdue : ¬s.Due n) : ¬s.LoopEnds := by
  refine Inevitably.not_of_closed (C := fun s => Waits n s ∧ ¬s.Due n) ?_ ?_ ⟨h,hdue⟩
  · rintro s ⟨h,hdue⟩ hc
    exact hdue (h.due_of_lastIndex_eq (h.caught_iff.mp hc))
  · rintro s t ⟨h,hdue⟩ ⟨a,⟨ha,hw⟩,hstep⟩
    exact ⟨h.step ha hstep,fun hd => hdue ((h.due_iff ha hw hstep).mp hd)⟩

end

end System.Waits

namespace System

variable {s : System} {db : DB} {v : ℕ} {err : Option String} {t : MultiTree}

theorem Reachable.waits (hs : s.Reachable) (hdb : s.db = some db)
    (hphase : db.phase = .waiting v err t) :
    Waits (walIndex v db.mtree.initialVersion) s := by
  have hp := (hs.ok.db db hdb).phase
  rw [DB.PhaseOk,hphase] at hp
  refine ⟨hs.ok,db,v,err,t,hdb,hphase,?_⟩
  have hv := hp.2.1.version
  have := hp.2.1.snapshot
  rw [← hv,walIndex_of_pos (by omega)]
  rfl

/-- The loop in which `Commit` waits for the log ends, whatever the goroutines do, exactly when
the log is not beyond the version that was saved and all entries that it lacks are on their
way. -/
theorem wait_loop_ends_iff (hs : s.Reachable) (hdb : s.db = some db)
    (hphase : db.phase = .waiting v err t) :
    s.LoopEnds ↔ s.Due (walIndex v db.mtree.initialVersion) := by
  have h := hs.waits hdb hphase
  exact ⟨fun hends => by_contra fun hdue => h.not_loopEnds hdue hends,h.loopEnds⟩

/-- A new database that switches to its first snapshot. -/
theorem wait_loop_ends_new : ∃ (s : System) (db : DB) (err : Option String) (t : MultiTree),
    s.Reachable ∧ s.db = some db ∧ db.phase = .waiting 2 err t ∧ s.LoopEnds := by
  have hex : (exec System.step (fun _ _ => True)
      ([.load { createIfMissing := true, snapshotInterval := 1 }] ++ commitActs ++ writeActs ++
        List.replicate 6 (.rewrite true) ++ commitActs) {}).any (fun s =>
      ∃ db ∈ s.db, db.phase.waitsFor = some 2 ∧ s.Due (walIndex 2 db.mtree.initialVersion)) =
        true := by
    decide +kernel
  obtain ⟨s,hs,hex⟩ := Run.exists_of_exec hex
  obtain ⟨db,hdb,hphase,hdue⟩ := of_decide_eq_true hex
  obtain ⟨err,t,hphase⟩ := Phase.waitsFor_eq_some hphase
  exact ⟨s,db,err,t,hs,hdb,hphase,(wait_loop_ends_iff hs hdb hphase).mpr hdue⟩

/-- A database opened at an older version waits for a log that is ahead of it. -/
theorem wait_loop_hangs : ∃ (s : System) (db : DB) (v : ℕ) (err : Option String) (t : MultiTree),
    s.Reachable ∧ s.db = some db ∧ db.phase = .waiting v err t ∧
      db.mtree.version < db.committedVersion s.disk.wal ∧ ¬s.LoopEnds := by
  have hex : (exec System.step (fun _ _ => True)
      ([.load { createIfMissing := true, asyncCommitBuffer := -1 }] ++ commitActs ++ commitActs ++
        commitActs ++ commitActs ++ [.call .close,
          .load { targetVersion := 1, asyncCommitBuffer := -1, snapshotInterval := 2 }] ++
        commitActs ++ List.replicate 6 (.rewrite true) ++ commitActs) {}).any (fun s =>
      ∃ db ∈ s.db, db.phase.waitsFor = some 3 ∧ ¬s.Due (walIndex 3 db.mtree.initialVersion) ∧
        db.mtree.version < db.committedVersion s.disk.wal) = true := by
    decide +kernel
  obtain ⟨s,hs,hex⟩ := Run.exists_of_exec hex
  obtain ⟨db,hdb,hphase,hdue,hlt⟩ := of_decide_eq_true hex
  obtain ⟨err,t,hphase⟩ := Phase.waitsFor_eq_some hphase
  exact ⟨s,db,3,err,t,hs,hdb,hphase,hlt,(Reachable.waits hs hdb hphase).not_loopEnds hdue⟩

end System

end Memiavl
