import Memiavl.Db

/-! The actions of the system case by case: what a call, a step of a running call or a step of
a goroutine can lead to, and under which conditions. -/
namespace Memiavl

open Option

/-- The calls that change the trees and the pending log, and nothing else. -/
def DB.edit (db : DB) : Call → Option (DB × Option String)
  | .applyUpgrades us => some (db.applyUpgrades us)
  | .applyChangeSets css => some (db.applyChangeSets css)
  | .applyChangeSet name cs => some (db.applyChangeSet name cs)
  | _ => none

def DB.entry (db : DB) (mtree : MultiTree) (v : ℕ) : WalEntry :=
  ⟨walIndex v mtree.initialVersion,db.pendingLog⟩

namespace System

/-- The start of a call. -/
inductive Starts (s : System) (db : DB) : Call → System → Prop
  /-- The call returns and changes nothing. -/
  | refused {c : Call} (r : Reply) : db.edit c = none →
      (c = .commit → db.opts.readOnly = true) → Starts s db c (s.ret db c r)
  | edited {c : Call} {db' : DB} {e : Option String} : db.edit c = some (db',e) →
      Starts s db c (s.ret db' c (.ofError e))
  | initialised {iv : ℤ} {mtree : MultiTree} : db.opts.readOnly = false → db.mtree.version = 0 →
      db.mtree.setInitialVersion iv = (mtree,none) →
      Starts s db (.setInitialVersion iv)
        ({ s with disk := (s.disk.initEmptyDB mtree.initialVersion).1 }.ret { db with mtree }
          (.setInitialVersion iv) (.ofError (s.disk.initEmptyDB mtree.initialVersion).2))
  | saveFailed {mtree : MultiTree} {e : String} : db.opts.readOnly = false →
      db.mtree.saveVersion true = (mtree,.error e) →
      Starts s db .commit (s.ret { db with mtree } .commit (.error e))
  | sends {mtree : MultiTree} {v : ℕ} : db.opts.readOnly = false →
      db.mtree.saveVersion true = (mtree,.ok v) → 0 ≤ db.opts.asyncCommitBuffer →
      Starts s db .commit ({ s with trace := s.trace ++ [Event.committed (db.entry mtree v)] }.put
        { db with
          mtree
          walChan := some (db.walChan.getD { size := db.opts.asyncCommitBuffer.toNat })
          phase := .sending v (db.entry mtree v) })
  | writes {mtree : MultiTree} {v : ℕ} : db.opts.readOnly = false →
      db.mtree.saveVersion true = (mtree,.ok v) → db.opts.asyncCommitBuffer < 0 →
      Starts s db .commit ({ s with trace := s.trace ++ [Event.committed (db.entry mtree v)] }.put
        { db with mtree, phase := .writing v (db.entry mtree v) })
  | rewrites : db.opts.readOnly = false → Starts s db .rewriteSnapshot
      ({ s with disk := (s.disk.rewriteSnapshot db.mtree).1 }.ret db .rewriteSnapshot
        (.ofError (s.disk.rewriteSnapshot db.mtree).2))
  | clones : db.opts.readOnly = false → db.rewriter = none → Starts s db .rewriteSnapshotBackground
      (s.ret { db with rewriter := some { cloned := db.mtree } } .rewriteSnapshotBackground .done)
  | closes {c : Call} {chan : AsyncCommit} {phase : Phase} : db.walChan = some chan →
      c = .waitAsyncCommit ∧ phase = .waitQuit ∨ c = .close ∧ phase = .closeQuit →
      Starts s db c (s.put { db with walChan := some { chan with closed := true }, phase })
  | awaits : db.walChan = none → db.rewriter.isSome →
      Starts s db .close (s.put { db with phase := .closeRewrite none })
  | ends : db.walChan = none → db.rewriter = none → Starts s db .close (s.finishClose none)

variable {s s' : System} {db : DB}

theorem starts_setInitialVersion (s : System) (db : DB) (iv : ℤ) :
    Starts s db (.setInitialVersion iv) (s.startCall db (.setInitialVersion iv)) := by
  simp only [startCall,DB.setInitialVersion]
  split
  · exact .refused _ rfl (by simp)
  · rename_i hro
    split
    · exact .refused _ rfl (by simp)
    · rename_i hv
      split
      · rename_i mtree e he
        -- A failed `SetInitialVersion` leaves the trees as they are.
        have hmtree : mtree = db.mtree := by
          unfold MultiTree.setInitialVersion at he
          split at he
          · cases he
            rfl
          · split at he
            · cases he
              rfl
            · split at he <;> cases he
              rfl
        subst hmtree
        exact .refused _ rfl (by simp)
      · rename_i mtree he
        exact .initialised (by simpa using hro) (by omega) he

theorem starts_commit (s : System) (db : DB) : Starts s db .commit (s.commit db) := by
  unfold commit
  split
  · rename_i hro
    exact .refused _ rfl fun _ => hro
  · rename_i hro
    have hro : db.opts.readOnly = false := by simpa using hro
    split
    · rename_i he
      exact .saveFailed hro he
    · rename_i mtree v he
      split
      · rename_i hbuf
        exact .sends hro he hbuf
      · rename_i hbuf
        exact .writes hro he (not_le.mp hbuf)

theorem starts_startCall (s : System) (db : DB) (c : Call) : Starts s db c (s.startCall db c) := by
  cases c with
  | applyUpgrades us | applyChangeSets css | applyChangeSet name cs => exact .edited rfl
  | setInitialVersion iv => exact starts_setInitialVersion s db iv
  | commit => exact starts_commit s db
  | rewriteSnapshot =>
    simp only [startCall]
    split
    · exact .refused _ rfl (by simp)
    · rename_i hro
      exact .rewrites (by simpa using hro)
  | rewriteSnapshotBackground =>
    simp only [startCall,DB.rewriteSnapshotBackground]
    split
    · exact .refused _ rfl (by simp)
    · rename_i hro
      split
      · exact .refused _ rfl (by simp)
      · rename_i hr
        exact .clones (by simpa using hro) hr
  | waitAsyncCommit =>
    simp only [startCall]
    split
    · exact .refused _ rfl (by simp)
    · rename_i hc
      exact .closes hc (.inl ⟨rfl,rfl⟩)
  | close =>
    simp only [startCall,closeRewrite]
    split
    · rename_i hc
      split
      · rename_i hr
        exact .ends hc hr
      · rename_i hr
        exact .awaits hc (by simp [hr])
    · rename_i hc
      exact .closes hc (.inr ⟨rfl,rfl⟩)

inductive Finishes (s : System) (db : DB) (v : ℕ) : Option String → System → Prop
  | failed (e : String) : Finishes s db v (some e) (s.ret db .commit (.error e))
  | kept : Finishes s db v none (s.ret db .commit (.version v))
  | clones : db.rewriter = none → v % db.opts.interval = 0 → Finishes s db v none
      (s.ret { db with rewriter := some { cloned := db.mtree } } .commit (.version v))

theorem finishes_finishCommit (s : System) (db : DB) (v : ℕ) (err : Option String) :
    Finishes s db v err (s.finishCommit db v err) := by
  cases err with
  | some e => exact .failed e
  | none =>
    simp only [finishCommit,DB.rewriteIfApplicable,DB.rewriteSnapshotBackground]
    split
    · exact .kept
    · rename_i hv
      split
      · exact .kept
      · rename_i hr
        exact .clones hr (not_not.mp hv)

/-- A call that is running goes on. -/
inductive Proceeds (s : System) (db : DB) : Option ℕ → System → Prop
  | sent {f : Option ℕ} {v : ℕ} {e : WalEntry} {c c' : AsyncCommit} : db.phase = .sending v e →
      db.walChan = some c → c.send e = some c' → Proceeds s db f
        (s.put { db with walChan := some c', pendingLog := {}, phase := .checkAsyncCommit v })
  | broke {k v : ℕ} {e : WalEntry} {wal : IndexedLog WALEntry} : db.phase = .writing v e →
      wal = (s.disk.wal.writeBatch ((writeEntry s.disk.wal.lastIndex [] e).take k)).getD
        s.disk.wal → Proceeds s db (some k)
        ({ s with disk := { s.disk with wal } }.ret db .commit (.error "input/output error"))
  | outOfOrder {v : ℕ} {e : WalEntry} : db.phase = .writing v e →
      s.disk.wal.writeBatch (writeEntry s.disk.wal.lastIndex [] e) = none →
      Proceeds s db none (s.ret db .commit (.error "out of order"))
  | written {v : ℕ} {e : WalEntry} {wal : IndexedLog WALEntry} : db.phase = .writing v e →
      s.disk.wal.writeBatch (writeEntry s.disk.wal.lastIndex [] e) = some wal →
      Proceeds s db none ({ s with disk := { s.disk with wal } }.put
        { db with pendingLog := {}, phase := .checkAsyncCommit v })
  | checked {f : Option ℕ} {v : ℕ} : db.phase = .checkAsyncCommit v →
      db.walChan.bind recvQuit = none →
      Proceeds s db f (s.put { db with phase := .checkRewrite v none })
  | quit {f : Option ℕ} {v : ℕ} {cause : Option String} (e : String) :
      db.phase = .checkAsyncCommit v → db.walChan.bind recvQuit = some cause →
      Proceeds s db f (s.put { db with
        walChan := db.walChan.map fun c => { c with writer := .quit }
        phase := .checkRewrite v (some e) })
  | passed {f : Option ℕ} {v : ℕ} {err : Option String} : db.phase = .checkRewrite v err →
      (∀ r ∈ db.rewriter, (∀ res, r.stage ≠ .sending res) ∧ r.stage ≠ .finished) →
      Proceeds s db f (s.finishCommit db v err)
  | notRewritten {f : Option ℕ} {v : ℕ} {err : Option String} {r : Rewriter} {e : String} :
      db.phase = .checkRewrite v err → db.rewriter = some r → r.stage = .sending (.error e) →
      Proceeds s db f (s.finishCommit { db with rewriter := none } v
        (joinErrors err (some s!"background snapshot rewriting failed: {e}")))
  | dropped {f : Option ℕ} {v : ℕ} {err : Option String} {r : Rewriter} :
      db.phase = .checkRewrite v err → db.rewriter = some r → r.stage = .finished →
      Proceeds s db f (s.finishCommit { db with rewriter := none } v err)
  | received {f : Option ℕ} {v : ℕ} {err : Option String} {r : Rewriter} {t : MultiTree} :
      db.phase = .checkRewrite v err → db.rewriter = some r → r.stage = .sending (.ok t) →
      Proceeds s db f (s.put { db with rewriter := none, phase := .waiting v err t })
  | notCaughtUp {f : Option ℕ} {v : ℕ} {err : Option String} {t : MultiTree} {e : String} :
      db.phase = .waiting v err t → db.committedVersion s.disk.wal = db.mtree.version →
      t.catchupWAL s.disk.wal 0 = .error e → Proceeds s db f
        (s.finishCommit db v (joinErrors err (some s!"catchup failed: {e}")))
  | notReplayed {f : Option ℕ} {v : ℕ} {err : Option String} {t t₁ mtree : MultiTree} {e : String} :
      db.phase = .waiting v err t → db.committedVersion s.disk.wal = db.mtree.version →
      t.catchupWAL s.disk.wal 0 = .ok t₁ → t₁.applyWALEntry db.pendingLog = (mtree,some e) →
      Proceeds s db f (s.finishCommit { db with mtree } v
        (joinErrors err (some s!"switch multitree failed: {e}")))
  | switched {f : Option ℕ} {v : ℕ} {err : Option String} {t t₁ mtree : MultiTree} :
      db.phase = .waiting v err t → db.committedVersion s.disk.wal = db.mtree.version →
      t.catchupWAL s.disk.wal 0 = .ok t₁ → t₁.applyWALEntry db.pendingLog = (mtree,none) →
      Proceeds s db f (s.put { db with mtree, phase := .pruning v err })
  | prunes {f : Option ℕ} {v : ℕ} {err : Option String} : db.phase = .pruning v err →
      s.pruner = none → Proceeds s db f ({ s with
        pruner := some { keepRecent := db.opts.snapshotKeepRecent } }.finishCommit db v err)
  | waited {f : Option ℕ} {c : AsyncCommit} {err : Option String} : db.phase = .waitQuit →
      db.walChan = some c → recvQuit c = some err →
      Proceeds s db f (s.ret { db with walChan := none } .waitAsyncCommit (.ofError err))
  | awaits {f : Option ℕ} {c : AsyncCommit} {err : Option String} : db.phase = .closeQuit →
      db.walChan = some c → recvQuit c = some err → db.rewriter.isSome →
      Proceeds s db f (s.put { db with walChan := none, phase := .closeRewrite err })
  | closed {f : Option ℕ} {c : AsyncCommit} {err : Option String} : db.phase = .closeQuit →
      db.walChan = some c → recvQuit c = some err → db.rewriter = none →
      Proceeds s db f (s.finishClose err)
  | ends {f : Option ℕ} {err : Option String} : db.phase = .closeRewrite err →
      Proceeds s db f (s.finishClose err)

variable {f : Option ℕ}

theorem proceeds_writing {v : ℕ} {e : WalEntry} (hphase : db.phase = .writing v e)
    (h : s.proceed db f = some s') : Proceeds s db f s' := by
  simp only [proceed,hphase] at h
  split at h
  · cases h
    exact .broke hphase rfl
  · split at h
    · rename_i hw
      cases h
      exact .outOfOrder hphase hw
    · rename_i hw
      cases h
      exact .written hphase hw

theorem proceeds_checkRewrite {v : ℕ} {err : Option String}
    (hphase : db.phase = .checkRewrite v err) : Proceeds s db f (s.checkRewrite db v err) := by
  unfold checkRewrite
  split
  · rename_i hr
    exact .passed hphase (by simp [hr])
  · rename_i r hr
    split
    · rename_i hstage
      exact .notRewritten hphase hr hstage
    · rename_i hstage
      exact .received hphase hr hstage
    · rename_i hstage
      exact .dropped hphase hr hstage
    · rename_i herr hok hfin
      refine .passed hphase ?_
      rw [hr]
      rintro x ⟨⟩
      refine ⟨?_,hfin⟩
      rintro (e | t) hres
      · exact herr e hres
      · exact hok t hres

theorem proceeds_switch {v : ℕ} {err : Option String} {t : MultiTree}
    (hphase : db.phase = .waiting v err t)
    (hguard : db.committedVersion s.disk.wal = db.mtree.version) :
    Proceeds s db f (s.switch db v err t) := by
  unfold switch
  split
  · rename_i hc
    exact .notCaughtUp hphase hguard hc
  · rename_i hc
    split
    · rename_i ha
      exact .notReplayed hphase hguard hc ha
    · rename_i ha
      exact .switched hphase hguard hc ha

theorem proceeds_of_proceed (h : s.proceed db f = some s') : Proceeds s db f s' := by
  cases hphase : db.phase with
  | idle =>
    simp only [proceed,hphase] at h
    cases h
  | sending v e =>
    simp only [proceed,hphase,bind_eq_bind,bind_eq_some_iff] at h
    obtain ⟨c,hc,c',hsend,h⟩ := h
    cases h
    exact .sent hphase hc hsend
  | writing v e => exact proceeds_writing hphase h
  | checkAsyncCommit v =>
    simp only [proceed,hphase] at h
    split at h
    · rename_i hquit
      cases h
      exact .checked hphase hquit
    · rename_i hquit
      cases h
      exact .quit _ hphase hquit
  | checkRewrite v err =>
    simp only [proceed,hphase] at h
    cases h
    exact proceeds_checkRewrite hphase
  | waiting v err t =>
    simp only [proceed,hphase,ite_none_right_eq_some] at h
    obtain ⟨hguard,h⟩ := h
    cases h
    exact proceeds_switch hphase hguard
  | pruning v err =>
    simp only [proceed,hphase] at h
    split at h
    · cases h
    · rename_i hp
      cases h
      exact .prunes hphase hp
  | waitQuit =>
    simp only [proceed,hphase,bind_eq_bind,bind_eq_some_iff] at h
    obtain ⟨c,hc,err,herr,h⟩ := h
    cases h
    exact .waited hphase hc herr
  | closeQuit =>
    simp only [proceed,hphase,bind_eq_bind,bind_eq_some_iff,closeRewrite] at h
    obtain ⟨c,hc,err,herr,h⟩ := h
    split at h
    · rename_i hr
      cases h
      exact .closed hphase hc herr hr
    · rename_i hr
      cases h
      exact .awaits hphase hc herr (by simp [hr])
  | closeRewrite err =>
    simp only [proceed,hphase,bind_eq_bind,bind_eq_some_iff] at h
    obtain ⟨r,hr,h⟩ := h
    split at h <;> cases h <;> exact .ends hphase

/-- A step of the goroutine that rewrites a snapshot. -/
inductive Rewrites (d : Disk) (r : Rewriter) : Disk → Rewriter → Prop
  | wrote : r.stage = .writing → Rewrites d r (d.writeTmp r.cloned) { r with stage := .renaming }
  | cancelled : r.stage = .writing →
      Rewrites d r (d.dropTmp r.cloned.version) { r with stage := .finished }
  | renamed {d' : Disk} : r.stage = .renaming → d.renameTmp r.cloned.version = some d' →
      Rewrites d r d' { r with stage := .linking }
  | linked {d' : Disk} : r.stage = .linking → d.linkTmp r.cloned.version = some d' →
      Rewrites d r d' { r with stage := .switching }
  | switched {d' : Disk} : r.stage = .switching → d.renameLink = some d' →
      Rewrites d r d' { r with stage := .loading }
  /-- A step on the directory fails. -/
  | failed : r.stage ≠ .finished → Rewrites d r d { r with stage := .finished }
  | notLoaded {e : String} : r.stage = .loading → d.loadCurrent = .error e →
      Rewrites d r d { r with stage := .sending (.error e) }
  | loaded {t : MultiTree} : r.stage = .loading → d.loadCurrent = .ok t →
      Rewrites d r d { r with stage := .catching t }
  | caughtUp {t : MultiTree} : r.stage = .catching t →
      Rewrites d r d { r with stage := .sending (t.catchupWAL d.wal 0) }

theorem rewrites_of_rewriteStep {d d' : Disk} {r r' : Rewriter} {ok : Bool}
    (h : rewriteStep d r ok = some (d',r')) : Rewrites d r d' r' := by
  unfold rewriteStep afterStep at h
  split at h
  · rename_i hstage
    split at h <;> cases h
    · exact .wrote hstage
    · exact .cancelled hstage
  · rename_i hstage
    split at h <;> cases h
    · exact .failed (by simp [hstage])
    · rename_i hd
      exact .renamed hstage hd
  · rename_i hstage
    split at h <;> cases h
    · exact .failed (by simp [hstage])
    · rename_i hd
      exact .linked hstage hd
  · rename_i hstage
    split at h <;> cases h
    · exact .failed (by simp [hstage])
    · rename_i hd
      exact .switched hstage hd
  · rename_i hstage
    split at h <;> rename_i hl <;> cases h
    · exact .notLoaded hstage hl
    · exact .loaded hstage hl
  · rename_i t hstage
    cases h
    exact .caughtUp hstage
  · cases h
  · cases h

/-- A step of the goroutine that prunes snapshots. -/
inductive Prunes (s : System) (p : Pruner) : System → Prop
  | ended : Prunes s p { s with pruner := none }
  | listed {current : ℕ} {vs : List ℕ} : p.stage = .starting →
      s.disk.currentVersion = .ok current →
      Disk.toPrune current p.keepRecent s.disk.versions.reverse = .ok vs →
      Prunes s p { s with pruner := some { p with stage := .removing vs } }
  | removed {v : ℕ} {vs : List ℕ} : p.stage = .removing (v::vs) →
      Prunes s p { s with
        disk := s.disk.removeSnapshot v, pruner := some { p with stage := .removing vs } }
  | truncated {db : DB} : p.stage = .removing [] → s.db = some db →
      Prunes s p { s with disk := s.disk.truncateWAL db.mtree.initialVersion, pruner := none }
  | panics : p.stage = .removing [] → s.db = none →
      Prunes s p { s with pruner := none, panicked := true }

theorem prunes_pruneStep (s : System) (p : Pruner) : Prunes s p (s.pruneStep p) := by
  unfold pruneStep
  split
  · rename_i hstage
    split
    · exact .ended
    · rename_i hc
      split
      · exact .ended
      · rename_i hvs
        exact .listed hstage hc hvs
  · rename_i hstage
    exact .removed hstage
  · rename_i hstage
    split
    · rename_i hdb
      exact .panics hstage hdb
    · rename_i hdb
      exact .truncated hstage hdb

/-- An action, by what it leads to. -/
inductive Turns (s : System) : Act → System → Prop
  | loaded {o : Options} {db : DB} {d : Disk} : s.db = none → s.pruner = none →
      DB.load o s.disk = (.ok db,d) → Turns s (.load o) { s with disk := d, db := some db }
  | notLoaded {o : Options} {e : String} {d : Disk} : s.db = none → s.pruner = none →
      DB.load o s.disk = (.error e,d) → Turns s (.load o) { s with disk := d }
  | starts {c : Call} {db : DB} {s' : System} : s.db = some db → db.phase = .idle →
      Starts s db c s' → Turns s (.call c) s'
  | proceeds {f : Option ℕ} {db : DB} {s' : System} : s.db = some db → Proceeds s db f s' →
      Turns s (.proceed f) s'
  | writes {f : Option ℕ} {db : DB} {c c' : AsyncCommit} {wal : IndexedLog WALEntry} :
      s.db = some db → db.walChan = some c → c.step s.disk.wal f = some (c',wal) →
      Turns s (.write f)
        { s with disk := { s.disk with wal }, db := some { db with walChan := some c' } }
  | rewrites {ok : Bool} {db : DB} {r r' : Rewriter} {d : Disk} : s.db = some db →
      db.rewriter = some r → Rewrites s.disk r d r' →
      Turns s (.rewrite ok) { s with disk := d, db := some { db with rewriter := some r' } }
  | prunes {p : Pruner} {s' : System} : s.pruner = some p → Prunes s p s' → Turns s .prune s'
  | crashed (keep : ℕ) : Turns s (.crash keep) (s.endsWith s.disk keep)
  | interrupted {w : Work} {n keep : ℕ} {d : Disk} : d ∈ s.points w →
      Turns s (.interrupt w n keep) (s.endsWith d keep)

theorem turns_of_step {a : Act} (h : s.step a = some s') : Turns s a s' := by
  cases a with
  | load o =>
    simp only [step] at h
    split at h
    · rename_i hdb hp
      split at h <;> rename_i hl <;> cases h
      · exact .notLoaded hdb hp hl
      · exact .loaded hdb hp hl
    · cases h
  | call c =>
    simp only [step,bind_eq_bind,bind_eq_some_iff,
      ite_none_right_eq_some] at h
    obtain ⟨db,hdb,hidle,h⟩ := h
    cases h
    exact .starts hdb hidle (starts_startCall s db c)
  | proceed f =>
    simp only [step,bind_eq_bind,bind_eq_some_iff] at h
    obtain ⟨db,hdb,h⟩ := h
    exact .proceeds hdb (proceeds_of_proceed h)
  | write f =>
    simp only [step,bind_eq_bind,bind_eq_some_iff] at h
    obtain ⟨db,hdb,c,hc,⟨c',wal⟩,hw,h⟩ := h
    cases h
    exact .writes hdb hc hw
  | rewrite ok =>
    simp only [step,bind_eq_bind,bind_eq_some_iff] at h
    obtain ⟨db,hdb,r,hr,⟨d,r'⟩,hstep,h⟩ := h
    cases h
    exact .rewrites hdb hr (rewrites_of_rewriteStep hstep)
  | prune =>
    simp only [step,bind_eq_bind,bind_eq_some_iff] at h
    obtain ⟨p,hp,h⟩ := h
    cases h
    exact .prunes hp (prunes_pruneStep s p)
  | crash keep =>
    cases h
    exact .crashed keep
  | interrupt w n keep =>
    obtain ⟨d,hd,rfl⟩ := map_eq_some_iff.mp h
    exact .interrupted (List.mem_of_getElem? hd)

end System

end Memiavl
