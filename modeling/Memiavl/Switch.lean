import Memiavl.Crash

/-! The switch to a snapshot that was written in the background cannot be seen: what calls return
depends on the calls alone. The calls on the trees, without a log, goroutines or snapshots, are
the abstract machine here. -/
namespace Memiavl

open MultiTree List Transition

/-- The same trees, commit info and pending changes. -/
structure DB.Alike (p db : DB) : Prop where
  bare : p.mtree.bare = db.mtree.bare
  info : p.mtree.lastCommitInfo = db.mtree.lastCommitInfo
  pending : p.pendingLog = db.pendingLog
  readOnly : p.opts.readOnly = db.opts.readOnly

namespace DB.Alike

variable {p db : DB}

theorem view (h : p.Alike db) : p.mtree.view = db.mtree.view := by
  obtain ⟨-,htrees,-⟩ := bare_eq_iff.mp h.bare
  rw [MultiTree.view,MultiTree.view,htrees,h.info]

theorem congr {db' : DB} (h : p.Alike db) (hmtree : db'.mtree = db.mtree)
    (hpending : db'.pendingLog = db.pendingLog) (hopts : db'.opts = db.opts) : p.Alike db' :=
  ⟨by rw [hmtree]; exact h.bare,by rw [hmtree]; exact h.info,h.pending.trans hpending.symm,
    by rw [hopts]; exact h.readOnly⟩

theorem applyUpgrades (h : p.Alike db) (us : List TreeNameUpgrade) :
    (p.applyUpgrades us).2 = (db.applyUpgrades us).2 ∧
      (p.applyUpgrades us).1.Alike (db.applyUpgrades us).1 := by
  have hp := bare_applyUpgrades p.mtree us
  have hdb := bare_applyUpgrades db.mtree us
  rw [h.bare,hdb] at hp
  obtain ⟨hbare,herr⟩ := Prod.mk.inj hp
  have hsame := sameVersion_applyUpgrades p.mtree us
  have hsame' := sameVersion_applyUpgrades db.mtree us
  unfold DB.applyUpgrades
  rw [h.readOnly]
  split
  · exact ⟨rfl,h⟩
  · cases hr : p.mtree.applyUpgrades us with
    | mk t e =>
      cases hr' : db.mtree.applyUpgrades us with
      | mk t' e' =>
        rw [hr] at hbare herr hsame
        rw [hr'] at hbare herr hsame'
        obtain rfl : e' = e := herr
        have hinfo : t.lastCommitInfo = t'.lastCommitInfo :=
          hsame.lastCommitInfo.trans (h.info.trans hsame'.lastCommitInfo.symm)
        cases e' with
        | none => exact ⟨rfl,hbare.symm,hinfo,by simp only [h.pending],h.readOnly⟩
        | some e => exact ⟨rfl,hbare.symm,hinfo,h.pending,h.readOnly⟩

theorem applyChangeSet (h : p.Alike db) (name : Bytes) (cs : ChangeSet) :
    (p.applyChangeSet name cs).2 = (db.applyChangeSet name cs).2 ∧
      (p.applyChangeSet name cs).1.Alike (db.applyChangeSet name cs).1 := by
  have hp := bare_applyChangeSet p.mtree name cs
  rw [h.bare,bare_applyChangeSet db.mtree name cs] at hp
  obtain ⟨hbare,herr⟩ := Prod.mk.inj hp
  have hsame := sameVersion_applyChangeSet p.mtree name cs
  have hsame' := sameVersion_applyChangeSet db.mtree name cs
  unfold DB.applyChangeSet
  rw [h.readOnly]
  split
  · exact ⟨rfl,h⟩
  split
  · exact ⟨rfl,h⟩
  · exact ⟨herr.symm,hbare.symm,
      hsame.lastCommitInfo.trans (h.info.trans hsame'.lastCommitInfo.symm),
      by simp only [h.pending],h.readOnly⟩

theorem mergeChangeSets (h : p.Alike db) (css : List NamedChangeSet) :
    (p.mergeChangeSets css).2 = (db.mergeChangeSets css).2 ∧
      (p.mergeChangeSets css).1.Alike (db.mergeChangeSets css).1 := by
  induction css generalizing p db with
  | nil => exact ⟨rfl,h⟩
  | cons cs css ih =>
    obtain ⟨herr,halike⟩ := h.applyChangeSet cs.name cs.changeset
    rw [DB.mergeChangeSets,DB.mergeChangeSets]
    cases hr : p.applyChangeSet cs.name cs.changeset with
    | mk q e =>
      cases hr' : db.applyChangeSet cs.name cs.changeset with
      | mk q' e' =>
        rw [hr,hr'] at herr halike
        obtain rfl : e = e' := herr
        cases e with
        | none => exact ih halike
        | some e => exact ⟨rfl,halike⟩

theorem applyChangeSets (h : p.Alike db) (css : List NamedChangeSet) :
    (p.applyChangeSets css).2 = (db.applyChangeSets css).2 ∧
      (p.applyChangeSets css).1.Alike (db.applyChangeSets css).1 := by
  have hp := bare_applyChangeSets p.mtree css
  rw [h.bare,bare_applyChangeSets db.mtree css] at hp
  obtain ⟨hbare,herr⟩ := Prod.mk.inj hp
  have hsame := sameVersion_applyChangeSets p.mtree css
  have hsame' := sameVersion_applyChangeSets db.mtree css
  unfold DB.applyChangeSets
  rw [h.readOnly,h.pending]
  split
  · exact ⟨rfl,h⟩
  split
  · exact ⟨rfl,h⟩
  split
  · exact ⟨herr.symm,hbare.symm,
      hsame.lastCommitInfo.trans (h.info.trans hsame'.lastCommitInfo.symm),rfl,h.readOnly⟩
  · exact h.mergeChangeSets css

end DB.Alike

namespace DB

/-- A call without a log, goroutines or snapshots. -/
def plain (db : DB) : Call → DB × Reply
  | .applyUpgrades us => ((db.applyUpgrades us).1,.ofError (db.applyUpgrades us).2)
  | .applyChangeSets css => ((db.applyChangeSets css).1,.ofError (db.applyChangeSets css).2)
  | .applyChangeSet name cs =>
    ((db.applyChangeSet name cs).1,.ofError (db.applyChangeSet name cs).2)
  | .commit =>
    match db.mtree.saveVersion true with
    | (mtree,.error e) => ({ db with mtree },.error e)
    | (mtree,.ok v) => ({ db with mtree, pendingLog := {} },.version v)
  | _ => (db,.done)

theorem plain_of_edit {db db' : DB} {c : Call} {e : Option String}
    (he : db.edit c = some (db',e)) : db.plain c = (db',.ofError e) := by
  cases c with
  | applyUpgrades | applyChangeSets | applyChangeSet =>
    obtain ⟨rfl,rfl⟩ := Prod.mk.inj (Option.some.inj he)
    rfl
  | setInitialVersion | commit | rewriteSnapshot | rewriteSnapshotBackground | waitAsyncCommit
  | close => cases he

theorem plain_commit {db : DB} {mtree : MultiTree} {v : ℕ}
    (hsave : db.mtree.saveVersion true = (mtree,.ok v)) :
    db.plain .commit = ({ db with mtree, pendingLog := {} },.version v) := by
  simp only [plain,hsave]

def after (db : DB) (cs : List Call) : DB := cs.foldl (fun db c => (db.plain c).1) db

/-- What the calls return, and what a user sees after each of them. -/
def results (db : DB) : List Call → List (Call × Reply × View)
  | [] => []
  | c::cs => (c,(db.plain c).2,(db.plain c).1.mtree.view)::(db.plain c).1.results cs

theorem results_append (db : DB) (cs : List Call) (c : Call) :
    db.results (cs ++ [c]) = db.results cs ++
      [(c,((db.after cs).plain c).2,((db.after cs).plain c).1.mtree.view)] := by
  induction cs generalizing db with
  | nil => rfl
  | cons c' cs ih =>
    rw [cons_append,results,ih]
    rfl

theorem after_append (db : DB) (cs : List Call) (c : Call) :
    db.after (cs ++ [c]) = ((db.after cs).plain c).1 := by
  rw [after,foldl_append]
  rfl

@[simp] theorem fst_results (db : DB) (cs : List Call) : (db.results cs).map Prod.fst = cs := by
  induction cs generalizing db with
  | nil => rfl
  | cons c cs ih => rw [results,map_cons,ih]

theorem Alike.commit {p db : DB} (h : p.Alike db) :
    (p.plain .commit).2 = (db.plain .commit).2 ∧ (p.plain .commit).1.Alike (db.plain .commit).1 := by
  obtain ⟨hiv,htrees,hindex,-⟩ := bare_eq_iff.mp h.bare
  simp only [plain,saveVersion,hiv,htrees,h.info]
  generalize saveTrees db.mtree.trees = q
  obtain ⟨trees,_ | e⟩ := q
  · exact ⟨rfl,bare_eq_iff.mpr ⟨rfl,rfl,hindex,rfl⟩,rfl,rfl,h.readOnly⟩
  · exact ⟨rfl,bare_eq_iff.mpr ⟨rfl,rfl,hindex,rfl⟩,rfl,h.pending,h.readOnly⟩

theorem Alike.plain {p db : DB} (h : p.Alike db) (c : Call) :
    (p.plain c).2 = (db.plain c).2 ∧ (p.plain c).1.Alike (db.plain c).1 := by
  cases c with
  | applyUpgrades us => exact ⟨congrArg Reply.ofError (h.applyUpgrades us).1,(h.applyUpgrades us).2⟩
  | applyChangeSets css =>
    exact ⟨congrArg Reply.ofError (h.applyChangeSets css).1,(h.applyChangeSets css).2⟩
  | applyChangeSet name cs =>
    exact ⟨congrArg Reply.ofError (h.applyChangeSet name cs).1,(h.applyChangeSet name cs).2⟩
  | commit => exact h.commit
  | setInitialVersion | rewriteSnapshot | rewriteSnapshotBackground | waitAsyncCommit | close =>
    exact ⟨rfl,h⟩

theorem Alike.results {p db : DB} (h : p.Alike db) (cs : List Call) :
    p.results cs = db.results cs := by
  induction cs generalizing p db with
  | nil => rfl
  | cons c cs ih =>
    obtain ⟨hreply,halike⟩ := h.plain c
    rw [DB.results,DB.results,hreply,halike.view,ih halike]

end DB

/-- The calls of a user who works with the open database. -/
def Call.Works : Call → Prop
  | .applyUpgrades _ | .applyChangeSets _ | .applyChangeSet _ _ | .commit => True
  | _ => False

instance (c : Call) : Decidable c.Works := by
  induction c using Call.casesOn <;> dsimp only [Call.Works] <;> infer_instance

def Event.return? : Event → Option (Call × Reply × View)
  | .committed _ => none
  | .returned c r view => some (c,r,view)

namespace System

variable {s s' : System} {h : History} {leftover : List (ℕ × SnapshotDir)} {db db' : DB} {v : ℕ}

/-- What calls have returned, with what a user saw then. -/
def returns (s : System) : List (Call × Reply × View) := s.trace.filterMap Event.return?

theorem returns_congr (htrace : s'.trace = s.trace) : s'.returns = s.returns := by
  rw [returns,returns,htrace]

theorem returns_committed {e : WalEntry} (htrace : s'.trace = s.trace ++ [.committed e]) :
    s'.returns = s.returns := by
  rw [returns,htrace,filterMap_append]
  exact List.append_nil _

theorem returns_append {c : Call} {r : Reply} {view : View}
    (htrace : s'.trace = s.trace ++ [.returned c r view]) :
    s'.returns = s.returns ++ [(c,r,view)] := by
  rw [returns,htrace,filterMap_append]
  rfl

/-- Regular actions of a session in which only these calls are made. -/
def Session (s : System) : Act → Prop
  | .load _ | .crash _ | .interrupt .. => False
  | .call c => c.Works ∧ System.Regular [] s (.call c)
  | a => System.Regular [] s a

instance (s : System) (a : Act) : Decidable (s.Session a) := by
  induction a using Act.casesOn <;> dsimp only [Session] <;> infer_instance

theorem Session.onward {a : Act} (ha : s.Session a) : s.Onward a := by
  cases a with
  | load | crash | interrupt => exact ha.elim
  | call => exact ha.2
  | proceed | write | rewrite | prune => exact ha

/-- A running `Commit` of version `v` takes a step. -/
inductive CommitStep (s : System) (db : DB) (v : ℕ) (s' : System) : Prop
  | goesOn (db' : DB) : s'.db = some db' → s'.trace = s.trace → db'.phase.committing? = some v →
      db'.mtree.bare = db.mtree.bare → db'.mtree.lastCommitInfo = db.mtree.lastCommitInfo →
      db'.opts = db.opts → CommitStep s db v s'
  | returns (db' : DB) : s'.db = some db' → db'.phase = .idle →
      s'.trace = s.trace ++ [.returned .commit (.version v) db.mtree.view] →
      db'.mtree = db.mtree → db'.pendingLog = {} → db'.opts = db.opts → CommitStep s db v s'

theorem commitStep_finishCommit {s₁ : System} (htrace : s₁.trace = s.trace)
    (hmtree : db'.mtree = db.mtree) (hpending : db'.pendingLog = {}) (hopts : db'.opts = db.opts) :
    CommitStep s db v (s₁.finishCommit db' v none) := by
  have hf := finishes_finishCommit s₁ db' v none
  generalize s₁.finishCommit db' v none = s' at hf ⊢
  cases hf with
  | kept | clones =>
    exact .returns _ rfl rfl (by rw [ret,htrace,hmtree]) hmtree hpending hopts

/-- At the latest version, the trees that a snapshot gives are those that were there before. -/
theorem Latest.mtree_eq {d d' : Disk} (ht : db.Tracks h d) (hphase : db.phase.Committing)
    (ht' : db'.Tracks h d') (hphase' : db'.phase.Committing)
    (hposition : db'.mtree.position = db.mtree.position) :
    db'.mtree.bare = db.mtree.bare ∧ db'.mtree.lastCommitInfo = db.mtree.lastCommitInfo := by
  obtain ⟨st,hat,hinfo,-,hst⟩ := ht.state
  obtain ⟨st',hat',hinfo',-,hst'⟩ := ht'.state
  rw [hposition] at hat'
  obtain rfl := hat'.unique hat
  exact ⟨(hst' hphase').trans (hst hphase).symm,hinfo'.trans hinfo.symm⟩

theorem commitStep_of_proceeds (hok : s.Ok) (hs : s.Faithful h leftover) (hl : s.Latest h)
    (hdb : s.db = some db) (hv : db.phase.committing? = some v) (hp : Proceeds s db none s') :
    CommitStep s db v s' := by
  have hg := goes_proceeds hok hs hdb hp
  have ht := hs.db db hdb
  have hcommitting := committing_of_some hv
  have hsent := ht.sent hcommitting
  have herror := ht.error
  have hversion : ∀ {phase : Phase}, db.phase = phase → phase.committing? = some v := by
    rintro phase rfl
    exact hv
  have hfailed : ∀ {e : String} {view : View},
      s'.trace ≠ s.trace ++ [.returned .commit (.error e) view] := by
    intro e view htrace
    obtain ⟨events,hevents,htells⟩ := hg.trace
    obtain rfl := append_cancel_left (hevents.symm.trans htrace)
    exact htells _ mem_cons_self
  cases hp with
  | sent hphase | written hphase | checked hphase | received hphase =>
    obtain rfl := Option.some.inj (hversion hphase)
    exact .goesOn _ rfl rfl rfl rfl rfl rfl
  | outOfOrder => exact absurd rfl hfailed
  | quit e => cases (hg.faithful.db _ rfl).error
  | passed hphase | dropped hphase | prunes hphase =>
    obtain rfl := Option.some.inj (hversion hphase)
    rw [hphase] at herror hsent
    obtain rfl := herror
    exact commitStep_finishCommit rfl rfl (hsent rfl) rfl
  | notRewritten hphase | notCaughtUp hphase | notReplayed hphase =>
    rw [hphase] at herror
    obtain rfl := herror
    exact absurd rfl hfailed
  | switched hphase =>
    obtain rfl := Option.some.inj (hversion hphase)
    have ht' := hg.faithful.db _ rfl
    obtain ⟨hlatest,-⟩ := ht'.pruning _ _ rfl
    obtain ⟨hbare,hinfo⟩ := Latest.mtree_eq ht hcommitting ht' trivial
      (hlatest.trans (hl db hdb).symm)
    exact .goesOn _ rfl rfl rfl hbare hinfo rfl
  | waited hphase | awaits hphase | closed hphase | ends hphase => cases hversion hphase

/-- The calls of a run so far have returned what they return on the trees alone, and the database
is as these calls leave it. -/
def Mirrors (db₀ : DB) (returned : List (Call × Reply × View)) (s : System) : Prop :=
  ∃ cs db, s.returns = returned ++ db₀.results cs ∧ s.db = some db ∧
    (db.phase = .idle ∧ (db₀.after cs).Alike db ∨
      ∃ v, db.phase.committing? = some v ∧ ((db₀.after cs).plain .commit).2 = .version v ∧
        ((db₀.after cs).plain .commit).1.Alike { db with pendingLog := {} })

variable {db₀ : DB} {returned : List (Call × Reply × View)}

theorem Mirrors.append {cs : List Call} {c : Call} {view : View}
    (hreturns : s.returns = returned ++ db₀.results cs)
    (htrace : s'.trace = s.trace ++ [.returned c ((db₀.after cs).plain c).2 view])
    (hdb : s'.db = some db') (hidle : db'.phase = .idle)
    (halike : ((db₀.after cs).plain c).1.Alike db') (hview : db'.mtree.view = view) :
    Mirrors db₀ returned s' := by
  refine ⟨cs ++ [c],db',?_,hdb,.inl ⟨hidle,by rwa [DB.after_append]⟩⟩
  rw [returns_append htrace,hreturns,DB.results_append,halike.view,hview,append_assoc]

theorem Mirrors.starts (hm : Mirrors db₀ returned s) (hdb : s.db = some db)
    (hidle : db.phase = .idle) {c : Call} (hworks : c.Works) (hr : db.Regular s.disk c)
    (hstart : Starts s db c s') : Mirrors db₀ returned s' := by
  obtain ⟨cs,x,hreturns,hx,hstate⟩ := hm
  cases hdb.symm.trans hx
  have halike : (db₀.after cs).Alike db := by
    rcases hstate with ⟨-,halike⟩ | ⟨v,hv,-⟩
    · exact halike
    · rw [hidle] at hv
      cases hv
  obtain ⟨hreply,hplain⟩ := halike.plain c
  cases hstart with
  | refused r hedit hcommit =>
    cases c with
    | commit =>
      have hro := hcommit rfl
      rw [hr.1] at hro
      cases hro
    | applyUpgrades | applyChangeSets | applyChangeSet => cases hedit
    | setInitialVersion | rewriteSnapshot | rewriteSnapshotBackground | waitAsyncCommit | close =>
      exact hworks.elim
  | edited he =>
    rw [DB.plain_of_edit he] at hreply hplain
    refine Mirrors.append hreturns (by rw [hreply]; rfl) rfl rfl (hplain.congr rfl rfl rfl) rfl
  | saveFailed hro he =>
    obtain ⟨t,v,hsave⟩ := exists_saveVersion hr.2.1 true
    rw [hsave] at he
    cases he
  | sends hro hsave hbuf | writes hro hsave hbuf =>
    rw [DB.plain_commit hsave] at hreply hplain
    exact ⟨cs,_,(returns_committed rfl).trans hreturns,rfl,.inr ⟨_,rfl,hreply,
      hplain.congr rfl rfl rfl⟩⟩
  | initialised | rewrites | clones | awaits | ends => exact hworks.elim
  | closes _ hcall => rcases hcall with ⟨rfl,-⟩ | ⟨rfl,-⟩ <;> exact hworks.elim

theorem Mirrors.proceeds (hm : Mirrors db₀ returned s) (hok : s.Ok) (hs : s.Faithful h leftover)
    (hl : s.Latest h) (hdb : s.db = some db) (hp : Proceeds s db none s') :
    Mirrors db₀ returned s' := by
  obtain ⟨cs,x,hreturns,hx,hstate⟩ := hm
  cases hdb.symm.trans hx
  rcases hstate with ⟨hidle,-⟩ | ⟨v,hv,hreply,halike⟩
  · cases hp with
    | sent hphase | outOfOrder hphase | written hphase | checked hphase | quit _ hphase
    | passed hphase | notRewritten hphase | dropped hphase | received hphase | notCaughtUp hphase
    | notReplayed hphase | switched hphase | prunes hphase | waited hphase | awaits hphase
    | closed hphase | ends hphase => cases hidle.symm.trans hphase
  · cases commitStep_of_proceeds hok hs hl hdb hv hp with
    | goesOn db' hdb' htrace hv' hbare hinfo hopts =>
      refine ⟨cs,db',by rw [returns_congr htrace,hreturns],hdb',.inr ⟨v,hv',hreply,?_⟩⟩
      exact ⟨halike.bare.trans hbare.symm,halike.info.trans hinfo.symm,halike.pending,
        by rw [halike.readOnly,hopts]⟩
    | returns db' hdb' hidle htrace hmtree hpending hopts =>
      rw [← hreply] at htrace
      refine Mirrors.append hreturns htrace hdb' hidle ?_ (by rw [hmtree])
      exact ⟨by rw [hmtree]; exact halike.bare,by rw [hmtree]; exact halike.info,
        halike.pending.trans hpending.symm,by rw [halike.readOnly,hopts]⟩

theorem Mirrors.setDb (hm : Mirrors db₀ returned s) (hdb : s.db = some db) (hdb' : s'.db = some db')
    (htrace : s'.trace = s.trace) (hphase : db'.phase = db.phase) (hmtree : db'.mtree = db.mtree)
    (hpending : db'.pendingLog = db.pendingLog) (hopts : db'.opts = db.opts) :
    Mirrors db₀ returned s' := by
  obtain ⟨cs,x,hreturns,hx,hstate⟩ := hm
  cases hdb.symm.trans hx
  refine ⟨cs,db',by rw [returns_congr htrace,hreturns],hdb',?_⟩
  rw [hphase]
  rcases hstate with ⟨hidle,halike⟩ | ⟨v,hv,hreply,halike⟩
  · exact .inl ⟨hidle,halike.congr hmtree hpending hopts⟩
  · exact .inr ⟨v,hv,hreply,halike.congr hmtree rfl hopts⟩

theorem Mirrors.step (hm : Mirrors db₀ returned s) (hok : s.Ok) (hs : s.Faithful h leftover)
    (hl : s.Latest h) {a : Act} (ha : s.Session a) (hstep : s.step a = some s') :
    Mirrors db₀ returned s' := by
  cases turns_of_step hstep with
  | loaded | notLoaded | crashed | interrupted => exact ha.elim
  | starts hdb hidle hstart => exact hm.starts hdb hidle ha.1 (ha.2 _ hdb) hstart
  | proceeds hdb hp =>
    obtain rfl : _ = none := ha
    exact hm.proceeds hok hs hl hdb hp
  | writes hdb | rewrites hdb => exact hm.setDb hdb rfl rfl rfl rfl rfl rfl
  | prunes hp hd =>
    obtain ⟨cs,db,hreturns,hdb,hstate⟩ := hm
    cases hd <;> exact ⟨cs,db,hreturns,hdb,hstate⟩

theorem Mirrors.run (hm : Mirrors db₀ returned s) (hok : s.Ok) (hs : s.Faithful h leftover)
    (hl : s.Latest h) (hrun : Run System.step Session s s') :
    Mirrors db₀ returned s' := by
  have hinv := hrun.invariant (I := fun t => t.Ok ∧ Mirrors db₀ returned t ∧
    ∃ h', t.Faithful h' leftover ∧ t.Latest h') ⟨hok,hm,h,hs,hl⟩ ?_
  · exact hinv.2.1
  rintro t a t' ⟨hok,hm,h₁,hs,hl⟩ ha hstep
  obtain ⟨h₂,hg,hl'⟩ := hl.step hok hs ha.onward hstep
  exact ⟨hok.step hstep,hm.step hok hs hl ha hstep,h₂,hg.faithful,hl'⟩

section
variable {s₀ : System} {o : Options} (hrun : Run System.step (System.Regular []) {} s₀)
  (hT : o.targetVersion = 0)
include hrun hT

/-- `Load` of the latest version, also of a directory that it creates. -/
theorem exists_latest (hstep : s₀.step (.load o) = some s) (hdb : s.db = some db) :
    db.phase = .idle ∧ s.trace = s₀.trace ∧ ∃ h, s.Faithful h [] ∧ s.Latest h := by
  cases turns_of_step hstep with
  | notLoaded hnone => cases hnone.symm.trans hdb
  | loaded hnone hp hload =>
    cases hdb
    obtain ⟨_,_,_,-,-,-,hopen⟩ := load_eq_ok hload
    refine ⟨(touches_openWith hopen).2,rfl,?_⟩
    rcases exists_remembers hrun with rfl | ⟨h,hs,-⟩
    · rcases load_empty o with ⟨e,he⟩ | heq
      · cases hload.symm.trans he
      · have hcreated := faithful_created o.initialVersion
        rw [heq] at hload
        have hg := goes_loaded hcreated rfl rfl (.inl hT) hload
        refine ⟨_,hg.faithful,?_⟩
        rintro x ⟨⟩
        exact latest_loaded hcreated rfl hT hload
    · have hg := goes_loaded hs.faithful hnone hp (.inl hT) hload
      refine ⟨h,hg.faithful,?_⟩
      rintro x ⟨⟩
      exact latest_loaded hs.faithful hnone hT hload

theorem exists_results {s₁ : System} (hload : s₀.step (.load o) = some s₁) (hdb : s₁.db = some db)
    (hsession : Run System.step Session s₁ s) : ∃ cs, s.returns = s₀.returns ++ db.results cs := by
  obtain ⟨hidle,htrace,h,hs,hl⟩ := exists_latest hrun hT hload hdb
  have hok := (reachable_of_run hrun).ok.step hload
  have hm : Mirrors db s₀.returns s₁ := ⟨[],db,by rw [returns_congr htrace]; simp [DB.results],hdb,
    .inl ⟨hidle,rfl,rfl,rfl,rfl⟩⟩
  obtain ⟨cs,-,hreturns,-⟩ := hm.run hok hs hl hsession
  exact ⟨cs,hreturns⟩

end

/-- The interval of snapshots does not matter for what is opened. -/
theorem alike_load {o : Options} {n : ℕ} {d d₁ d₂ : Disk} (hload : DB.load o d = (.ok db,d₁))
    (hload' : DB.load { o with snapshotInterval := n } d = (.ok db',d₂)) : db.Alike db' := by
  obtain ⟨e,v,mtree,hprep,hl,hroll,hopen⟩ := load_eq_ok hload
  obtain ⟨e',v',mtree',hprep',hl',hroll',hopen'⟩ := load_eq_ok hload'
  cases hprep.symm.trans hprep'
  cases hl.symm.trans hl'
  unfold DB.openWith DB.applyUpgrades at hopen hopen'
  simp only at hopen hopen'
  split at hopen <;> rename_i hcond
  · have hro : ¬o.readOnly = true := by simpa using hcond.1
    rw [if_pos hcond,if_neg hro] at hopen'
    rw [if_neg hro] at hopen
    generalize mtree.applyUpgrades _ = q at hopen hopen'
    obtain ⟨m,_ | err⟩ := q <;> cases hopen
    cases hopen'
    exact ⟨rfl,rfl,rfl,rfl⟩
  · rw [if_neg hcond] at hopen'
    cases hopen
    cases hopen'
    exact ⟨rfl,rfl,rfl,rfl⟩

def calls (s : System) : List Call := s.returns.map Prod.fst

/-- Regular actions of a session in which no snapshot is rewritten. -/
def Snapshotless (s : System) (a : Act) : Prop := s.Session a ∧ ∀ db ∈ s.db, db.rewriter = none

/-- A session in which snapshots are rewritten in the background, whatever the goroutines do, and
one without snapshots in which the same calls are made: every call returns the same and leaves the
same trees and commit info, and every `Commit` returns its version in the end, also the one that
receives a snapshot. -/
theorem background_switch_invisible {s₀ s₁ s p₁ p : System}
    (hrun : Run System.step (System.Regular []) {} s₀) {o : Options} {n : ℕ}
    (hT : o.targetVersion = 0) (hload : s₀.step (.load o) = some s₁)
    (hload' : s₀.step (.load { o with snapshotInterval := n }) = some p₁)
    (hopen : s₁.db.isSome) (hopen' : p₁.db.isSome)
    (hsession : Run System.step Session s₁ s)
    (hplain : Run System.step Snapshotless p₁ p) (hcalls : s.calls = p.calls) :
    s.returns = p.returns ∧ ∀ db, s.db = some db → db.phase = .idle →
      db.Regular s.disk .commit → ∃ s', s.step (.call .commit) = some s' ∧
        Inevitably (Moves System.step (Clean [] False)) (fun t => t.Returned .commit
          (· = .version (nextVersion db.mtree.version db.mtree.initialVersion))) s' := by
  obtain ⟨db,hdb⟩ := Option.isSome_iff_exists.mp hopen
  obtain ⟨db',hdb'⟩ := Option.isSome_iff_exists.mp hopen'
  obtain ⟨cs,hcs⟩ := exists_results hrun hT hload hdb hsession
  obtain ⟨cs',hcs'⟩ := exists_results hrun (o := { o with snapshotInterval := n }) hT hload' hdb'
    (hplain.mono fun _ _ ha => ha.1)
  have halike : db.Alike db' := by
    cases turns_of_step hload with
    | notLoaded hnone => cases hnone.symm.trans hdb
    | loaded _ _ hok =>
      cases turns_of_step hload' with
      | notLoaded hnone => cases hnone.symm.trans hdb'
      | loaded _ _ hok' =>
        cases hdb
        cases hdb'
        exact alike_load hok hok'
  have hsame : cs = cs' := by
    rw [calls,calls,hcs,hcs',map_append,map_append,DB.fst_results,DB.fst_results] at hcalls
    exact append_cancel_left hcalls
  refine ⟨by rw [hcs,hcs',hsame,halike.results],fun x hx hidle hr => ?_⟩
  obtain ⟨-,-,h,hs,hl⟩ := exists_latest hrun hT hload hdb
  obtain ⟨hok,h',leftover',hs',hl'⟩ := hl.resumes ((reachable_of_run hrun).ok.step hload) hs
    (hsession.mono fun _ _ ha => .inl ha.onward)
  obtain ⟨s',e,hstep,-,-,hend⟩ := (hl'.appends hok hs' hx hidle).commit hr
  exact ⟨s',hstep,hend.mono fun _ ht => ht.1⟩

/-- A new database with synchronous commits and snapshots at this interval. -/
def newOptions (snapshotInterval : ℕ) : Options where
  createIfMissing := true
  snapshotInterval := snapshotInterval
  asyncCommitBuffer := -1

/-- A snapshot of version 1 is written in the background, and after some calls the next `Commit`
switches to it in `steps` steps. -/
def switchActs (calls : List Call) (steps : ℕ) : List Act :=
  commitActs ++ List.replicate 6 (.rewrite true) ++ calls.map Act.call ++ [.call .commit] ++
    List.replicate steps (.proceed none)

def plainActs (calls : List Call) : List Act := commitActs ++ calls.map Act.call ++ commitActs

instance (s : System) (a : Act) : Decidable (s.Snapshotless a) :=
  inferInstanceAs (Decidable (_ ∧ _))

/-- A new database with snapshots of every version, and one without, both with one store. -/
theorem background_switch_invisible_new : ∃ s p : System,
    s.disk.current = some 1 ∧ p.disk.current = some 0 ∧ s.returns.length = 3 ∧
      s.returns = p.returns := by
  have hex : (System.step {} (.load (newOptions 1))).any (fun s₁ => s₁.db.isSome ∧
      (System.step {} (.load (newOptions 100))).any fun p₁ => p₁.db.isSome ∧
      (exec System.step Session
        (switchActs [.applyUpgrades [{ name := [120] }]] 5) s₁).any fun s =>
      (exec System.step Snapshotless
        (plainActs [.applyUpgrades [{ name := [120] }]]) p₁).any fun p =>
      s.disk.current = some 1 ∧ p.disk.current = some 0 ∧ s.returns.length = 3 ∧
        s.calls = p.calls) = true := by
    decide +kernel
  obtain ⟨s₁,hload,hex⟩ := (Option.any_eq_true ..).mp hex
  obtain ⟨hopen,hex⟩ := of_decide_eq_true hex
  obtain ⟨p₁,hload',hex⟩ := (Option.any_eq_true ..).mp hex
  obtain ⟨hopen',hex⟩ := of_decide_eq_true hex
  obtain ⟨s,hrun,hex⟩ := Run.exists_of_exec hex
  obtain ⟨p,hplain,hex⟩ := Run.exists_of_exec hex
  obtain ⟨hs,hp,hlength,hcalls⟩ := of_decide_eq_true hex
  exact ⟨s,p,hs,hp,hlength,(background_switch_invisible .refl rfl hload hload' hopen hopen' hrun
    hplain hcalls).1⟩

/-- A store that is added, written and deleted again before the next version. -/
def shortLivedStore : List Call :=
  [.applyUpgrades [{ name := [120] }],.applyChangeSets [⟨[120],[{ key := [1], value := [2] }]⟩],
    .applyUpgrades [{ name := [120], delete := true }]]

/-- Actions of a session in which no write fails. -/
def Working (_ : System) : Act → Prop
  | .load _ | .crash _ | .interrupt .. => False
  | .call c => c.Works
  | .proceed failure | .write failure => failure = none
  | .rewrite _ | .prune => True

instance (s : System) (a : Act) : Decidable (s.Working a) := by
  induction a using Act.casesOn <;> dsimp only [Working] <;> infer_instance

def replies (s : System) : List Reply := s.returns.map fun q => q.2.1

/-- The `Commit` that switches to the snapshot fails, where the same `Commit` without snapshots
returns version 2: the entry of version 2 adds and deletes the store before the change set. -/
theorem background_switch_fails : ∃ (s₁ s p₁ p : System) (o : Options) (n : ℕ),
    System.step {} (.load o) = some s₁ ∧
      System.step {} (.load { o with snapshotInterval := n }) = some p₁ ∧
      Run System.step Working s₁ s ∧
      Run System.step (fun s a => s.Working a ∧ ∀ db ∈ s.db, db.rewriter = none) p₁ p ∧
      s.calls = p.calls ∧ p.replies = [.version 1,.done,.done,.done,.version 2] ∧
      s.replies = [.version 1,.done,.done,.done,
        .error "catchup failed: replay wal entry failed, unknown tree name x"] := by
  have hex : (System.step {} (.load (newOptions 1))).any (fun s₁ =>
      (System.step {} (.load (newOptions 100))).any fun p₁ =>
      (exec System.step Working (switchActs shortLivedStore 4) s₁).any fun s =>
      (exec System.step (fun s a => s.Working a ∧ ∀ db ∈ s.db, db.rewriter = none)
        (plainActs shortLivedStore) p₁).any fun p => s.calls = p.calls ∧
          p.replies = [.version 1,.done,.done,.done,.version 2] ∧
          s.replies = [.version 1,.done,.done,.done,
            .error "catchup failed: replay wal entry failed, unknown tree name x"]) = true := by
    decide +kernel
  obtain ⟨s₁,hload,hex⟩ := (Option.any_eq_true ..).mp hex
  obtain ⟨p₁,hload',hex⟩ := (Option.any_eq_true ..).mp hex
  obtain ⟨s,hrun,hex⟩ := Run.exists_of_exec hex
  obtain ⟨p,hplain,hex⟩ := Run.exists_of_exec hex
  exact ⟨s₁,s,p₁,p,_,_,hload,hload',hrun,hplain,of_decide_eq_true hex⟩

end System

end Memiavl
