import Memiavl.DbInvariant

/-! What an action of a session does to the log and to the entries on their way to it. -/
namespace Memiavl

open MultiTree Option

/-- Actions that neither open a database nor end the process. -/
def Act.InSession : Act → Prop
  | .load _ | .crash _ | .interrupt .. => False
  | _ => True

instance (a : Act) : Decidable a.InSession := by
  unfold Act.InSession
  split <;> infer_instance

def Event.entry? : Event → Option WalEntry
  | .committed e => some e
  | .returned .. => none

def Event.FailedCommit : Event → Prop
  | .returned .commit (.error _) _ => True
  | _ => False

instance (e : Event) : Decidable e.FailedCommit := by
  unfold Event.FailedCommit
  split <;> infer_instance

namespace System

/-- Entries on their way to the log. -/
def flight (s : System) : List WalEntry := (s.db.map DB.flight).getD []

/-- The entries of all commits, in their order. -/
def committed (s : System) : List WalEntry := s.trace.filterMap Event.entry?

/-- The database is still the one that was open before, and not behind it. -/
def Continues (s s' : System) : Prop :=
  ∀ db' ∈ s'.db, ∃ db ∈ s.db, db'.opts = db.opts ∧ db.mtree.position ≤ db'.mtree.position

/-- The goroutine has failed, and is about to report it or has ended with that. -/
def Broken (c : AsyncCommit) : Prop := c.writer.Dead ∧ (c.writer = .quit → c.closed = false)

/-- A write has failed: that of the goroutine, or that of a call that writes itself and has
returned. -/
def WriteFailed (s : System) : Prop :=
  ∃ db ∈ s.db, (∃ c ∈ db.walChan, Broken c) ∨
    (db.opts.asyncCommitBuffer < 0 ∧ ∃ e ∈ s.trace.getLast?, e.FailedCommit)

instance (c : AsyncCommit) : Decidable (Broken c) := by
  unfold Broken
  infer_instance

instance (s : System) : Decidable s.WriteFailed := by
  unfold WriteFailed
  infer_instance

inductive WalEffect (s s' : System) : Prop
  /-- Entries may be cut off at the front of the log. -/
  | same : s'.disk.wal.TruncationOf s.disk.wal → s'.flight = s.flight →
      s'.committed = s.committed → WalEffect s s'
  | commit (db db' : DB) (e : WalEntry) : s.db = some db → s'.db = some db' →
      e.index = db.mtree.position+1 → db'.mtree.position = db.mtree.position+1 →
      s'.disk.wal = s.disk.wal → s'.flight = s.flight ++ [e] →
      s'.committed = s.committed ++ [e] → WalEffect s s'
  | skipped (es rest : List WalEntry) : s.flight = es ++ rest →
      s'.flight = es.filter (s.disk.wal.lastIndex < ·.index) ++ rest →
      s'.disk.wal = s.disk.wal → s'.committed = s.committed → WalEffect s s'
  | wrote (es rest : List WalEntry) : s.flight = es ++ rest →
      es.map WalEntry.index = List.range' (s.disk.wal.lastIndex+1) es.length →
      s'.disk.wal = s.disk.wal.append (es.map WalEntry.data) → s'.flight = rest →
      s'.committed = s.committed → WalEffect s s'
  | failed (xs : List WALEntry) : s'.WriteFailed → s'.disk.wal = s.disk.wal.append xs →
      s'.committed = s.committed → WalEffect s s'

variable {s s' : System} {db db' : DB}

theorem flight_some (hdb : s.db = some db) : s.flight = db.flight := by
  simp [flight,hdb]

@[simp] theorem flight_put (s : System) (db : DB) : (s.put db).flight = db.flight := rfl

@[simp] theorem flight_ret (s : System) (db : DB) (c : Call) (r : Reply) :
    (s.ret db c r).flight = db.chanFlight := by
  simp [ret,flight,DB.flight,DB.chanFlight,Phase.held]

@[simp] theorem committed_put (s : System) (db : DB) : (s.put db).committed = s.committed := rfl

@[simp] theorem committed_ret (s : System) (db : DB) (c : Call) (r : Reply) :
    (s.ret db c r).committed = s.committed := by
  simp [ret,committed,Event.entry?]

theorem finishCommit_eq (s : System) (db : DB) (v : ℕ) (err : Option String) :
    ∃ db' r, s.finishCommit db v err = s.ret db' .commit r ∧ db'.mtree = db.mtree ∧
      db'.opts = db.opts ∧ db'.walChan = db.walChan := by
  have hf := finishes_finishCommit s db v err
  generalize s.finishCommit db v err = s₁ at hf ⊢
  cases hf <;> exact ⟨_,_,rfl,rfl,rfl,rfl⟩

theorem chanFlight_congr (h : db'.walChan = db.walChan) : db'.chanFlight = db.chanFlight := by
  rw [DB.chanFlight,DB.chanFlight,h]

theorem flight_of_held_nil (h : db.phase.held = []) : db.flight = db.chanFlight := by
  rw [DB.flight,h,List.append_nil]

theorem continues_ret {s₁ : System} {c : Call} {r : Reply} (hdb : s.db = some db)
    (hopts : db'.opts = db.opts) (hpos : db.mtree.position ≤ db'.mtree.position) :
    Continues s (s₁.ret db' c r) := by
  rintro x ⟨⟩
  exact ⟨db,hdb,hopts,hpos⟩

theorem continues_put {s₁ : System} (hdb : s.db = some db) (hopts : db'.opts = db.opts)
    (hpos : db.mtree.position ≤ db'.mtree.position) : Continues s (s₁.put db') := by
  rintro x ⟨⟩
  exact ⟨db,hdb,hopts,hpos⟩

theorem effect_ret {s₁ : System} {c : Call} {r : Reply} (hdb : s.db = some db)
    (hheld : db.phase.held = []) (hwal : s₁.disk.wal.TruncationOf s.disk.wal)
    (htrace : s₁.trace = s.trace) (hopts : db'.opts = db.opts)
    (hpos : db.mtree.position ≤ db'.mtree.position) (hflight : db'.chanFlight = db.chanFlight) :
    WalEffect s (s₁.ret db' c r) ∧ Continues s (s₁.ret db' c r) := by
  refine ⟨.same hwal ?_ ?_,continues_ret hdb hopts hpos⟩
  · rw [flight_ret,hflight,flight_some hdb,flight_of_held_nil hheld]
  · rw [committed_ret,committed,htrace,committed]

theorem effect_put {s₁ : System} (hdb : s.db = some db) (hheld : db.phase.held = [])
    (hheld' : db'.phase.held = []) (hwal : s₁.disk.wal.TruncationOf s.disk.wal)
    (htrace : s₁.trace = s.trace) (hopts : db'.opts = db.opts)
    (hpos : db.mtree.position ≤ db'.mtree.position) (hflight : db'.chanFlight = db.chanFlight) :
    WalEffect s (s₁.put db') ∧ Continues s (s₁.put db') := by
  refine ⟨.same hwal ?_ ?_,continues_put hdb hopts hpos⟩
  · rw [flight_put,flight_of_held_nil hheld',hflight,flight_some hdb,flight_of_held_nil hheld]
  · rw [committed_put,committed,htrace,committed]

theorem effect_finishCommit {s₁ : System} {v : ℕ} {err : Option String} (hdb : s.db = some db)
    (hheld : db.phase.held = []) (hwal : s₁.disk.wal.TruncationOf s.disk.wal)
    (htrace : s₁.trace = s.trace) (hopts : db'.opts = db.opts)
    (hpos : db.mtree.position ≤ db'.mtree.position) (hflight : db'.chanFlight = db.chanFlight) :
    WalEffect s (s₁.finishCommit db' v err) ∧ Continues s (s₁.finishCommit db' v err) := by
  obtain ⟨db₁,r,he,hm,ho,hw⟩ := finishCommit_eq s₁ db' v err
  rw [he]
  exact effect_ret hdb hheld hwal htrace (ho.trans hopts) (by rw [hm]; exact hpos)
    ((chanFlight_congr hw).trans hflight)

theorem effect_saved {s' : System} {mtree : MultiTree} {v : ℕ} {phase : Phase}
    {walChan : Option AsyncCommit} (hs : s.Ok) (hdb : s.db = some db) (hidle : db.phase = .idle)
    (he : db.mtree.saveVersion true = (mtree,.ok v)) (hheld : phase.held = [db.entry mtree v])
    (hflight : DB.chanFlight { db with mtree, walChan, phase } = db.chanFlight)
    (hs' : s' = { s with trace := s.trace ++ [Event.committed (db.entry mtree v)] }.put
      { db with mtree, walChan, phase }) : WalEffect s s' ∧ Continues s s' := by
  subst hs'
  have hsaved := DB.saved_of_saveVersion (hs.db db hdb).base.sane he
  have hpos := hsaved.position
  refine ⟨.commit db _ (db.entry mtree v) hdb rfl (hsaved.index.trans hpos) hpos rfl ?_ ?_,
    continues_put hdb rfl (by rw [hpos]; omega)⟩
  · rw [flight_put,DB.flight,hflight,hheld,flight_some hdb,flight_of_held_nil (by rw [hidle]; rfl)]
  · simp [committed,put,Event.entry?]

theorem effect_finishClose {s₁ : System} {err : Option String} (hdb : s.db = some db)
    (hflight : db.flight = []) (hdisk : s₁.disk.wal = s.disk.wal) (htrace : s₁.trace = s.trace) :
    WalEffect s (s₁.finishClose err) ∧ Continues s (s₁.finishClose err) := by
  refine ⟨.same (by rw [finishClose,hdisk]; exact .refl _) ?_ ?_,by simp [Continues,finishClose]⟩
  · rw [flight_some hdb,hflight]
    rfl
  · simp [finishClose,committed,htrace,Event.entry?]

theorem effect_starts {c : Call} (hs : s.Ok) (hdb : s.db = some db) (hidle : db.phase = .idle)
    (h : Starts s db c s') : WalEffect s s' ∧ Continues s s' := by
  have hb := (hs.db db hdb).base
  have hheld : db.phase.held = [] := by rw [hidle]; rfl
  cases h with
  | refused r _ _ | clones _ _ => exact effect_ret hdb hheld (.refl _) rfl rfl le_rfl rfl
  | edited he =>
    have ht := DB.touches_edit he
    exact effect_ret hdb hheld (.refl _) rfl ht.opts ht.mtree.position_eq.ge
      (chanFlight_congr ht.walChan)
  | initialised _ hv _ =>
    refine effect_ret hdb hheld ?_ rfl rfl (by rw [DB.position_of_version hv]; omega) rfl
    simp only [Disk.wal_initEmptyDB]
    exact .refl _
  | saveFailed _ he =>
    have ha := advances_saveVersion db.mtree true
    rw [he] at ha
    exact effect_ret hdb hheld (.refl _) rfl rfl (by rw [ha.position_eq hb.sane]; omega) rfl
  | sends _ he _ => exact effect_saved hs hdb hidle he rfl (db.chanFlight_sends _ _) rfl
  | writes _ he _ => exact effect_saved hs hdb hidle he rfl (chanFlight_congr rfl) rfl
  | rewrites _ =>
    refine effect_ret hdb hheld ?_ rfl rfl le_rfl rfl
    simp only [Disk.wal_rewriteSnapshot]
    exact .refl _
  | closes hc hphase =>
    refine effect_put hdb hheld ?_ (.refl _) rfl rfl le_rfl ?_
    · rcases hphase with ⟨-,rfl⟩ | ⟨-,rfl⟩ <;> rfl
    · simp [DB.chanFlight,hc,AsyncCommit.flight]
  | awaits _ _ => exact effect_put hdb hheld rfl (.refl _) rfl rfl le_rfl (chanFlight_congr rfl)
  | ends hc _ =>
    refine effect_finishClose hdb ?_ rfl rfl
    rw [flight_of_held_nil hheld]
    simp [DB.chanFlight,hc]

variable {c : AsyncCommit} {v : ℕ} {failure : Option ℕ}

theorem recvQuit_isSome {err : Option String} (h : recvQuit c = some err) : c.writer.Dead := by
  unfold recvQuit at h
  split at h
  · rename_i hw
    rw [hw]
    trivial
  · rename_i hw
    rw [hw]
    trivial
  · cases h

theorem chanFlight_of_dead (hc : db.walChan = some c) (h : c.writer.Dead) : db.chanFlight = [] := by
  simp [DB.chanFlight,hc,AsyncCommit.flight_of_dead h]

theorem effect_sending {e : WalEntry} {c' : AsyncCommit} (hs : s.Ok) (hdb : s.db = some db)
    (hphase : db.phase = .sending v e) (hc : db.walChan = some c) (hsend : c.send e = some c') :
    let s' := s.put { db with
      walChan := some c', pendingLog := {}, phase := .checkAsyncCommit v }
    WalEffect s s' ∧ Continues s s' := by
  intro s'
  have hok := hs.db db hdb
  have hp := hok.phase
  rw [DB.PhaseOk,hphase] at hp
  obtain ⟨-,hsize,hclosed,hflight⟩ := AsyncCommit.flight_send (hok.base.chan c hc).1 hsend
  refine ⟨?_,continues_put hdb rfl le_rfl⟩
  by_cases hdead : c.writer.Dead
  · -- The entry goes to a goroutine that has failed and is lost.
    have hw : c'.writer = c.writer := by
      unfold AsyncCommit.send at hsend
      split at hsend
      · cases hsend
        rfl
      · simp only [ite_none_right_eq_some] at hsend
        obtain ⟨⟨-,hr⟩,-⟩ := hsend
        rw [hr] at hdead
        cases hdead
    refine .failed [] ⟨_,rfl,.inl ⟨c',rfl,hw ▸ hdead,fun _ => ?_⟩⟩ (by simp [s',put]) rfl
    exact hclosed.trans (hp.1 c hc)
  · have hcf : db.chanFlight = c.flight := by simp [DB.chanFlight,hc]
    refine .same (.refl _) ?_ rfl
    rw [flight_some hdb,DB.flight,hcf,hphase]
    simp [s',DB.flight,DB.chanFlight,Phase.held,hflight,hdead]

theorem writeFailed_ret {s₁ : System} {msg : String} (hbuf : db.opts.asyncCommitBuffer < 0) :
    (s₁.ret db .commit (.error msg)).WriteFailed :=
  ⟨_,rfl,.inr ⟨hbuf,.returned .commit (.error msg) db.mtree.view,by simp [ret],trivial⟩⟩

theorem effect_written {e : WalEntry} {wal : IndexedLog WALEntry} (hdb : s.db = some db)
    (hphase : db.phase = .writing v e) (hcf : db.chanFlight = [])
    (hw : s.disk.wal.writeBatch (writeEntry s.disk.wal.lastIndex [] e) = some wal) :
    WalEffect s ({ s with disk := { s.disk with wal } }.put
      { db with pendingLog := {}, phase := .checkAsyncCommit v }) := by
  obtain ⟨hi,rfl⟩ := IndexedLog.writeBatch_eq_some.mp hw
  have hflight : s.flight = [e] := by
    rw [flight_some hdb,DB.flight,hcf,hphase]
    rfl
  have hnil : DB.flight { db with pendingLog := {}, phase := .checkAsyncCommit v } = [] := by
    simp [DB.flight,Phase.held]
    exact (chanFlight_congr rfl).trans hcf
  by_cases hle : e.index ≤ s.disk.wal.lastIndex
  · refine .skipped [e] [] hflight ?_ (by simp [put,writeEntry,hle]) rfl
    rw [flight_put,hnil]
    simp [Nat.not_lt.mpr hle]
  · simp only [writeEntry,hle,if_false,List.nil_append,List.map_cons,List.map_nil,
      List.length_singleton] at hi
    exact .wrote [e] [] hflight hi (by simp [put,writeEntry,hle]) ((flight_put ..).trans hnil) rfl

theorem effect_proceeds (hs : s.Ok) (hdb : s.db = some db) (h : Proceeds s db failure s') :
    WalEffect s s' ∧ Continues s s' := by
  have hok := hs.db db hdb
  have hp := hok.phase
  unfold DB.PhaseOk at hp
  have hquit : ∀ {c err}, db.walChan = some c → recvQuit c = some err → db.chanFlight = [] :=
    fun hc hrecv => chanFlight_of_dead hc (recvQuit_isSome hrecv)
  cases h with
  | sent hphase hc hsend => exact effect_sending hs hdb hphase hc hsend
  | @broke k v e wal hphase hwal =>
    rw [hphase] at hp
    refine ⟨?_,continues_ret hdb rfl le_rfl⟩
    cases hw : s.disk.wal.writeBatch (List.take k (writeEntry s.disk.wal.lastIndex [] e)) with
    | none =>
      rw [hw] at hwal
      exact .failed [] (writeFailed_ret hp.2.2) (by simp [ret,hwal]) (by rw [committed_ret]; rfl)
    | some wal' =>
      rw [hw] at hwal
      obtain ⟨-,rfl⟩ := IndexedLog.writeBatch_eq_some.mp hw
      exact .failed _ (writeFailed_ret hp.2.2) (by simp [ret,hwal]; rfl) (by rw [committed_ret]; rfl)
  | outOfOrder hphase _ =>
    rw [hphase] at hp
    exact ⟨.failed [] (writeFailed_ret hp.2.2) (by simp [ret]) (committed_ret ..),
      continues_ret hdb rfl le_rfl⟩
  | written hphase hw =>
    rw [hphase] at hp
    have hchan := hok.base.walChan_eq_none hp.2.2
    exact ⟨effect_written hdb hphase (by simp [DB.chanFlight,hchan]) hw,continues_put hdb rfl le_rfl⟩
  | checked hphase _ =>
    exact effect_put hdb (by rw [hphase]; rfl) rfl (.refl _) rfl rfl le_rfl (chanFlight_congr rfl)
  | quit e hphase hq =>
    obtain ⟨c,hc,hrecv⟩ := bind_eq_some_iff.mp hq
    refine effect_put hdb (by rw [hphase]; rfl) rfl (.refl _) rfl rfl le_rfl ?_
    rw [hquit hc hrecv]
    simp [DB.chanFlight,hc,AsyncCommit.flight,Writer.Dead]
  | passed hphase _ | notRewritten hphase _ _ | dropped hphase _ _ | notCaughtUp hphase _ _
  | prunes hphase _ =>
    exact effect_finishCommit hdb (by rw [hphase]; rfl) (.refl _) rfl rfl le_rfl rfl
  | received hphase _ _ =>
    exact effect_put hdb (by rw [hphase]; rfl) rfl (.refl _) rfl rfl le_rfl rfl
  | notReplayed hphase hguard hc ha =>
    rw [hphase] at hp
    exact effect_finishCommit hdb (by rw [hphase]; rfl) (.refl _) rfl rfl
      (base_switch hok.base hp.2.1 hp.2.2 hguard hc ha).2 rfl
  | switched hphase hguard hc ha =>
    rw [hphase] at hp
    exact effect_put hdb (by rw [hphase]; rfl) rfl (.refl _) rfl rfl
      (base_switch hok.base hp.2.1 hp.2.2 hguard hc ha).2 rfl
  | waited hphase hc hrecv =>
    exact effect_ret hdb (by rw [hphase]; rfl) (.refl _) rfl rfl le_rfl (by rw [hquit hc hrecv]; rfl)
  | awaits hphase hc hrecv _ =>
    exact effect_put hdb (by rw [hphase]; rfl) rfl (.refl _) rfl rfl le_rfl
      (by rw [hquit hc hrecv]; rfl)
  | closed hphase hc hrecv _ =>
    refine effect_finishClose hdb ?_ rfl rfl
    rw [flight_of_held_nil (by rw [hphase]; rfl),hquit hc hrecv]
  | ends hphase =>
    refine effect_finishClose hdb ?_ rfl rfl
    rw [flight_of_held_nil (by rw [hphase]; rfl)]
    rw [hphase] at hp
    simp [DB.chanFlight,hp.1]

theorem effect_write (hdb : s.db = some db) {c' : AsyncCommit} {wal : IndexedLog WALEntry}
    (hc : db.walChan = some c) (h : c.step s.disk.wal failure = some (c',wal)) :
    WalEffect s { s with disk := { s.disk with wal }, db := some { db with walChan := some c' } } := by
  have hflight : s.flight = c.flight ++ db.phase.held := by
    rw [flight_some hdb,DB.flight,DB.chanFlight,hc]
    rfl
  have hflight' : System.flight { s with
      disk := { s.disk with wal }, db := some { db with walChan := some c' } } =
        c'.flight ++ db.phase.held := rfl
  cases (AsyncCommit.steps_of_step h).effect with
  | moved hf hw =>
    subst hw
    exact .same (.refl _) (by rw [hflight',hf,hflight]) rfl
  | skipped es rest hf hf' hw =>
    subst hw
    refine .skipped es (rest ++ db.phase.held) (by rw [hflight,hf,List.append_assoc]) ?_ rfl rfl
    rw [hflight',hf',List.append_assoc]
  | wrote es rest hf hi hw hf' =>
    refine .wrote es (rest ++ db.phase.held) (by rw [hflight,hf,List.append_assoc]) hi hw ?_ rfl
    rw [hflight',hf']
  | refused batch e _ _ hf hw =>
    exact .failed [] ⟨_,rfl,.inl ⟨c',rfl,by rw [hf]; trivial,by simp [hf]⟩⟩ (by simp [hw]) rfl
  | failed xs e _ hf hw =>
    exact .failed xs ⟨_,rfl,.inl ⟨c',rfl,by rw [hf]; trivial,by simp [hf]⟩⟩ hw rfl

theorem Prunes.same {p : Pruner} (h : Prunes s p s') :
    s'.disk.wal.TruncationOf s.disk.wal ∧ s'.db = s.db ∧ s'.trace = s.trace := by
  cases h with
  | ended | listed _ _ _ | panics _ _ => exact ⟨.refl _,rfl,rfl⟩
  | removed _ => exact ⟨(Disk.wal_removeSnapshot ..).symm ▸ .refl _,rfl,rfl⟩
  | truncated _ _ => exact ⟨s.disk.truncationOf_truncateWAL _,rfl,rfl⟩

/-- What every action of a session does to the log. -/
theorem effect_step (hs : s.Ok) {a : Act} (ha : a.InSession) (h : s.step a = some s') :
    WalEffect s s' ∧ Continues s s' := by
  cases turns_of_step h with
  | loaded _ _ _ | notLoaded _ _ _ | crashed keep | interrupted _ => exact ha.elim
  | starts hdb hidle h => exact effect_starts hs hdb hidle h
  | proceeds hdb h => exact effect_proceeds hs hdb h
  | writes hdb hc hw =>
    refine ⟨effect_write hdb hc hw,?_⟩
    rintro x ⟨⟩
    exact ⟨_,hdb,rfl,le_rfl⟩
  | rewrites hdb hr hstep =>
    have hwal := (hstep.sane hs.disk ((hs.db _ hdb).base.rewriter _ hr)).2.2
    refine ⟨.same (by simp only [hwal]; exact .refl _) (by rw [flight_some hdb]; rfl) rfl,?_⟩
    rintro x ⟨⟩
    exact ⟨_,hdb,rfl,le_rfl⟩
  | prunes _ hstep =>
    obtain ⟨hwal,hdb,htrace⟩ := hstep.same
    refine ⟨.same hwal (by rw [flight,flight,hdb]) (by rw [committed,committed,htrace]),?_⟩
    intro x hx
    rw [hdb] at hx
    exact ⟨x,hx,rfl,le_rfl⟩

end System

end Memiavl
