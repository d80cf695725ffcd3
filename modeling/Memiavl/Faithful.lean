import Memiavl.History
import Memiavl.WaitLoop

/-! A system that is faithful to a history: the directory holds its versions, the open database
and the goroutines work on versions of it, and the entries that the log does not have yet are
on their way to it. -/
namespace Memiavl

open MultiTree Memiavl.System List

namespace History

variable {h : History} {wal wal' : IndexedLog WALEntry} {flight es rest : List WalEntry}

/-- The log and the entries on their way to it are the entries of the history. -/
structure Carries (h : History) (wal : IndexedLog WALEntry) (flight : List WalEntry) : Prop where
  logs : h.Logs wal
  named : ∀ e ∈ flight, 0 < e.index ∧ h.entries[e.index-1]? = some e.data
  consecutive : Consecutive (wal.lastIndex+1) (beyond wal flight)
  complete : wal.lastIndex+(beyond wal flight).length = h.entries.length

theorem beyond_congr (hlast : wal'.lastIndex = wal.lastIndex) (es : List WalEntry) :
    beyond wal' es = beyond wal es := by
  rw [beyond,beyond,hlast]

theorem Logs.truncation (hl : h.Logs wal) (ht : wal'.TruncationOf wal) : h.Logs wal' := by
  rw [Logs,ht.lastIndex_eq]
  exact ht.trans hl

namespace Carries

theorem le (hc : h.Carries wal flight) : wal.lastIndex ≤ h.entries.length := hc.logs.le

theorem lastIndex_eq (hc : h.Carries wal []) : wal.lastIndex = h.entries.length := by
  simpa [beyond] using hc.complete

theorem of_nil (hl : h.Logs wal) (hlast : wal.lastIndex = h.entries.length) : h.Carries wal [] :=
  ⟨hl,by simp,by simp [Consecutive,beyond],by simpa [beyond] using hlast⟩

theorem truncation (hc : h.Carries wal flight) (ht : wal'.TruncationOf wal) :
    h.Carries wal' flight := by
  have hb := beyond_congr ht.lastIndex_eq flight
  refine ⟨hc.logs.truncation ht,hc.named,?_,?_⟩
  · rw [hb,ht.lastIndex_eq]
    exact hc.consecutive
  · rw [hb,ht.lastIndex_eq]
    exact hc.complete

theorem skip (hc : h.Carries wal (es ++ rest)) :
    h.Carries wal (es.filter (wal.lastIndex < ·.index) ++ rest) := by
  have hb : beyond wal (es.filter (wal.lastIndex < ·.index) ++ rest) = beyond wal (es ++ rest) := by
    rw [beyond_append,beyond_append,beyond,List.filter_filter]
    simp [beyond]
  refine ⟨hc.logs,?_,by rw [hb]; exact hc.consecutive,by rw [hb]; exact hc.complete⟩
  intro e he
  refine hc.named e ?_
  rcases mem_append.mp he with he | he
  · exact mem_append_left _ (mem_of_mem_filter he)
  · exact mem_append_right _ he

theorem batch (hc : h.Carries wal (es ++ rest)) (hnew : ∀ e ∈ es, wal.lastIndex < e.index) :
    Consecutive (wal.lastIndex+1) es := by
  have hes : beyond wal es = es := filter_eq_self.mpr fun e he => decide_eq_true (hnew e he)
  have hcons := hc.consecutive
  rw [beyond_append,hes] at hcons
  exact hcons.of_append

theorem data_eq (hc : h.Carries wal (es ++ rest)) (hes : Consecutive (wal.lastIndex+1) es) :
    es.map WalEntry.data = (h.entries.drop wal.lastIndex).take es.length := by
  refine ext_getElem? fun i => ?_
  rw [getElem?_map,getElem?_take,getElem?_drop]
  by_cases hi : i < es.length
  · have hindex : es[i].index = wal.lastIndex+1+i := by
      have := congrArg (fun l => l[i]?) hes
      simpa [hi,getElem?_range'] using this
    obtain ⟨-,hdata⟩ := hc.named es[i] (mem_append_left _ (getElem_mem hi))
    rw [if_pos hi,getElem?_eq_getElem hi,Option.map_some,← hdata,hindex]
    congr 1
    omega
  · rw [if_neg hi,getElem?_eq_none (by omega),Option.map_none]

theorem write (hc : h.Carries wal (es ++ rest))
    (hsorted : ((es ++ rest).map WalEntry.index).Pairwise (· < ·))
    (hes : Consecutive (wal.lastIndex+1) es) :
    h.Carries (wal.append (es.map WalEntry.data)) rest := by
  by_cases hne : es = []
  · subst hne
    simpa using hc
  have hlast : (wal.append (es.map WalEntry.data)).lastIndex = wal.lastIndex+es.length := by simp
  have hfirst : beyond wal es = es := filter_eq_self.mpr fun e he => by
    have := hes.bounds he
    simp only [decide_eq_true_eq]
    omega
  have hlater : ∀ e ∈ rest, wal.lastIndex+es.length < e.index := fun e he => by
    have := hes.lt_of_append hsorted hne he
    omega
  have hbeyond : beyond wal rest = rest := filter_eq_self.mpr fun e he => by
    have := hlater e he
    simp only [decide_eq_true_eq]
    omega
  have hbeyond' : beyond (wal.append (es.map WalEntry.data)) rest = rest :=
    filter_eq_self.mpr fun e he => by
      have := hlater e he
      simp only [decide_eq_true_eq,hlast]
      exact this
  have hcons := hc.consecutive
  have hcomplete := hc.complete
  rw [beyond_append,hfirst,hbeyond] at hcons hcomplete
  rw [length_append] at hcomplete
  refine ⟨?_,fun e he => hc.named e (mem_append_right _ he),?_,?_⟩
  · have htake : h.entries.take (wal.lastIndex+es.length) =
        h.entries.take wal.lastIndex ++ es.map WalEntry.data := by
      rw [take_add,hc.data_eq hes]
    rw [Logs,hlast,htake]
    exact IndexedLog.TruncationOf.append hc.logs _
  · rw [hbeyond',hlast]
    rw [Consecutive,map_append,length_append,← range'_append_1] at hcons
    rw [Consecutive,(append_inj hcons (by simp)).2]
    congr 1
    omega
  · rw [hbeyond',hlast]
    omega

end Carries

def extend (h : History) (e : WALEntry) : History := { h with entries := h.entries ++ [e] }

variable {k : ℕ} {t t' : MultiTree} {e : WALEntry}

@[simp] theorem start_extend (h : History) (e : WALEntry) : (h.extend e).start = h.start := rfl

@[simp] theorem length_extend (h : History) (e : WALEntry) :
    (h.extend e).entries.length = h.entries.length+1 := by simp [extend]

theorem take_extend (hk : k ≤ h.entries.length) (e : WALEntry) :
    (h.extend e).entries.take k = h.entries.take k := by
  rw [extend,take_append_of_le_length hk]

theorem At.extend (ht : h.At k t) (e : WALEntry) : (h.extend e).At k t := by
  refine ⟨by rw [length_extend]; exact Nat.le_succ_of_le ht.1,?_⟩
  rw [take_extend ht.1,start_extend]
  exact ht.2

theorem Shows.extend (ht : h.Shows k t) (e : WALEntry) : (h.extend e).Shows k t :=
  ⟨ht.state.extend e,ht.info,ht.snapshot⟩

theorem Stores.extend {p : ℕ × SnapshotDir} (hs : h.Stores p) (e : WALEntry) :
    (h.extend e).Stores p := by
  obtain ⟨k,t,hl,hv,ht⟩ := hs
  exact ⟨k,t,hl,hv,ht.extend e⟩

theorem Logs.extend (hl : h.Logs wal) (e : WALEntry) : (h.extend e).Logs wal := by
  rw [Logs,take_extend hl.le]
  exact hl

theorem At.next (ht : h.At h.entries.length t) (hr : t.replay e = .ok t') :
    (h.extend e).At (h.entries.length+1) t' :=
  ((ht.extend e).succ (by simp [History.extend])).mpr hr

theorem Valid.extend (hv : h.Valid) (ht : h.At h.entries.length t) (hr : t.replay e = .ok t') :
    (h.extend e).Valid := by
  refine ⟨hv.bare,hv.sane,hv.position,hv.proper,hv.saved,hv.empty,t',?_⟩
  have hat := (ht.next hr).2
  rwa [← length_extend h e,take_length] at hat

namespace Carries

variable {p : ℕ} {entry : WalEntry}

section
variable (hc : h.Carries wal flight)
include hc

/-- The log is complete, or all entries on their way are needed to reach the last one. -/
theorem lastIndex_or_le (hb : ∀ e ∈ flight, e.index ≤ p) :
    wal.lastIndex = h.entries.length ∨ h.entries.length ≤ p := by
  have hcomplete := hc.complete
  by_cases hnil : beyond wal flight = []
  · rw [hnil] at hcomplete
    exact .inl hcomplete
  · have hlast := hc.consecutive.index_getLast (getLast?_eq_some_getLast hnil)
    have hle := hb _ (mem_of_mem_filter (getLast_mem hnil))
    exact .inr (by omega)

theorem commit (hindex : entry.index = h.entries.length+1) :
    (h.extend entry.data).Carries wal (flight ++ [entry]) := by
  have hnew : beyond wal [entry] = [entry] := by
    have := hc.le
    simp only [beyond,filter_eq_self,mem_singleton,decide_eq_true_eq]
    rintro e rfl
    omega
  have hcomplete := hc.complete
  refine ⟨hc.logs.extend _,?_,?_,?_⟩
  · intro e he
    rcases mem_append.mp he with he | he
    · obtain ⟨hpos,hdata⟩ := hc.named e he
      obtain ⟨hlt,-⟩ := List.getElem?_eq_some_iff.mp hdata
      exact ⟨hpos,by rw [History.extend,getElem?_append_left hlt,hdata]⟩
    · rw [mem_singleton.mp he,hindex]
      exact ⟨by omega,by simp [History.extend]⟩
  · rw [beyond_append,hnew]
    refine hc.consecutive.append ?_
    simp only [Consecutive,map_cons,map_nil,length_singleton,range'_one,hindex]
    congr 1
    omega
  · rw [beyond_append,hnew,length_extend,length_append,length_singleton]
    omega

theorem commit_again (hlast : wal.lastIndex = h.entries.length) (hindex : entry.index = p+1)
    (hdata : h.entries[p]? = some entry.data) : h.Carries wal (flight ++ [entry]) := by
  obtain ⟨hlt,-⟩ := List.getElem?_eq_some_iff.mp hdata
  have hnil : beyond wal [entry] = [] := by
    rw [beyond,filter_eq_nil_iff]
    intro e he
    rw [mem_singleton.mp he]
    simp only [decide_eq_true_eq]
    omega
  have hold : beyond wal (flight ++ [entry]) = beyond wal flight := by
    rw [beyond_append,hnil,List.append_nil]
  refine ⟨hc.logs,?_,by rw [hold]; exact hc.consecutive,by rw [hold]; exact hc.complete⟩
  intro e he
  rcases mem_append.mp he with he | he
  · exact hc.named e he
  · rw [mem_singleton.mp he,hindex]
    exact ⟨by omega,hdata⟩

theorem read_eq (hb : wal.base ≤ p) (hp : p < wal.lastIndex) : wal.read (p+1) = h.entries[p]? := by
  rw [hc.logs.read_eq (by omega),IndexedLog.read,if_pos (Nat.succ_pos p)]
  simp only [Nat.sub_zero,Nat.add_sub_cancel,getElem?_take,if_pos hp]

end

end Carries

end History

/-- The phases of `Commit`, in which the trees are those of the version it has saved. -/
def Phase.Committing : Phase → Prop
  | .sending _ _ | .writing _ _ | .checkAsyncCommit _ | .checkRewrite _ _ | .waiting _ _ _
  | .pruning _ _ => True
  | _ => False

/-- The phases of `Commit` after it has received the result of a rewrite. -/
def Phase.Switching : Phase → Prop
  | .waiting _ _ _ | .pruning _ _ => True
  | _ => False

/-- The error with which `Commit` is going to return. -/
def Phase.error? : Phase → Option String
  | .checkRewrite _ err | .waiting _ err _ | .pruning _ err => err
  | _ => none

/-- Trees that a catch-up can start from, also after more pruning. -/
structure History.Starts (h : History) (d : Disk) (t : MultiTree) : Prop where
  shows : ∃ k, h.Shows k t
  base : d.wal.base ≤ t.position
  current : ∀ c ∈ d.current, entriesAt c h.start.initialVersion ≤ t.position

/-- The goroutine that rewrites a snapshot writes a version and sends one. -/
structure Rewriter.Tracks (r : Rewriter) (h : History) (d : Disk) : Prop where
  cloned : ∃ k, h.Shows k r.cloned
  version : r.cloned.version ≠ 0
  base : d.wal.base ≤ r.cloned.position
  renamed : r.stage = .linking ∨ r.stage = .switching →
    ∃ dir, (r.cloned.version,dir) ∈ d.snapshots ∧ h.Stores (r.cloned.version,dir)
  linked : r.stage = .switching → d.currentTmp = some r.cloned.version
  result : ∀ t, r.stage = .catching t ∨ r.stage = .sending (.ok t) → h.Starts d t
  ok : ∀ e, r.stage ≠ .sending (.error e)

namespace DB

/-- The open database is at a version of the history, with changes pending. -/
structure Tracks (db : DB) (h : History) (d : Disk) : Prop where
  state : ∃ st, h.At db.mtree.position st ∧
    db.mtree.lastCommitInfo = st.buildCommitInfo st.version ∧
    (db.phase.held = [] → db.Follows st) ∧ (db.phase.Committing → db.mtree.bare = st)
  sent : db.phase.Committing → db.phase.held = [] → db.pendingLog = {}
  first : db.mtree.version = 0 → h.entries = []
  base : d.wal.base ≤ db.mtree.position
  writable : db.phase.Committing ∨ db.rewriter.isSome → db.opts.readOnly = false
  tmpDirs : db.opts.readOnly = false → ∀ p ∈ d.tmpDirs, p.1 ≠ 0 ∧ h.Stores p
  alive : ∀ c ∈ db.walChan, c.writer.Dead → c.writer = .quit ∧ c.closed = true
  rewriter : ∀ r ∈ db.rewriter, r.Tracks h d
  received : db.phase.Switching → db.rewriter = none
  waiting : ∀ v err t, db.phase = .waiting v err t → h.Starts d t
  pruning : ∀ v err, db.phase = .pruning v err →
    db.mtree.position = h.entries.length ∧ db.mtree.version = v ∧ v ≠ 0
  error : db.phase.error? = none

end DB

/-- The goroutine that prunes snapshots removes none that is needed. -/
structure Pruner.Tracks (p : Pruner) (h : History) (d : Disk) (db : Option DB) : Prop where
  latest : ∀ x ∈ db, x.mtree.position = h.entries.length
  behind : ∀ x ∈ db, ∀ r ∈ x.rewriter, ∀ c ∈ d.current, c ≤ r.cloned.version
  removing : ∀ vs, p.stage = .removing vs → ∀ v ∈ vs, ∀ c ∈ d.current, v < c

namespace System

/-- The system holds a history, apart from directories that are left over from another one. -/
structure Faithful (s : System) (h : History) (leftover : List (ℕ × SnapshotDir)) : Prop where
  valid : h.Valid
  /-- Indices are 64-bit integers that stay far from their bound. -/
  small : h.entries.length < 2^63
  disk : s.disk.Keeps h leftover
  flight : h.Carries s.disk.wal s.flight
  db : ∀ db ∈ s.db, db.Tracks h s.disk
  pruner : ∀ p ∈ s.pruner, p.Tracks h s.disk s.db
  leftover : ∀ p ∈ leftover, p.1 ≠ 0

end System

section
variable {h : History} {d d' : Disk} {e : WALEntry}

theorem History.Starts.congr {t : MultiTree} (hs : h.Starts d t) (hbase : d'.wal.base ≤ t.position)
    (hcurrent : d'.current = d.current) : h.Starts d' t :=
  ⟨hs.shows,hbase,by rw [hcurrent]; exact hs.current⟩

theorem History.Starts.extend {t : MultiTree} (hs : h.Starts d t) (e : WALEntry) :
    (h.extend e).Starts d t := by
  obtain ⟨k,ht⟩ := hs.shows
  exact ⟨⟨k,ht.extend e⟩,hs.base,hs.current⟩

theorem Rewriter.Tracks.extend {r : Rewriter} (hr : r.Tracks h d) (e : WALEntry) :
    r.Tracks (h.extend e) d := by
  obtain ⟨k,ht⟩ := hr.cloned
  refine ⟨⟨k,ht.extend e⟩,hr.version,hr.base,fun hstage => ?_,hr.linked,
    fun t hstage => (hr.result t hstage).extend e,hr.ok⟩
  obtain ⟨dir,hmem,hs⟩ := hr.renamed hstage
  exact ⟨dir,hmem,hs.extend e⟩

theorem Rewriter.Tracks.setWal {r : Rewriter} (hr : r.Tracks h d) {wal : IndexedLog WALEntry}
    (hbase : wal.base ≤ r.cloned.position)
    (hresult : ∀ t, r.stage = .catching t ∨ r.stage = .sending (.ok t) → wal.base ≤ t.position) :
    r.Tracks h { d with wal } :=
  ⟨hr.cloned,hr.version,hbase,hr.renamed,hr.linked,
    fun t hstage => (hr.result t hstage).congr (hresult t hstage) rfl,hr.ok⟩

variable {db : DB} {walChan : Option AsyncCommit}

theorem DB.Tracks.setDisk (ht : db.Tracks h d) (htmp : d'.tmpDirs = d.tmpDirs)
    (hbase : d'.wal.base ≤ db.mtree.position) (hrewriter : ∀ r ∈ db.rewriter, r.Tracks h d')
    (hwaiting : ∀ v err t, db.phase = .waiting v err t → h.Starts d' t) : db.Tracks h d' where
  state := ht.state
  sent := ht.sent
  first := ht.first
  base := hbase
  writable := ht.writable
  tmpDirs := by rw [htmp]; exact ht.tmpDirs
  alive := ht.alive
  rewriter := hrewriter
  received := ht.received
  waiting := hwaiting
  pruning := ht.pruning
  error := ht.error

theorem DB.Tracks.setWal (ht : db.Tracks h d) {wal : IndexedLog WALEntry}
    (hbase : wal.base ≤ d.wal.base) : db.Tracks h { d with wal } := by
  refine ht.setDisk rfl (hbase.trans ht.base) ?_ ?_
  · intro r hr
    have htr := ht.rewriter r hr
    exact htr.setWal (hbase.trans htr.base) fun t hstage => hbase.trans (htr.result t hstage).base
  · intro v err t hphase
    have hstarts := ht.waiting v err t hphase
    exact hstarts.congr (hbase.trans hstarts.base) rfl

theorem DB.Tracks.idle (ht : db.Tracks h d) (hheld : db.phase.held = []) :
    Tracks { db with phase := .idle } h d where
  state := by
    obtain ⟨st,hat,hinfo,hfollows,-⟩ := ht.state
    exact ⟨st,hat,hinfo,fun _ => (hfollows hheld).congr rfl rfl,False.elim⟩
  sent := False.elim
  first := ht.first
  base := ht.base
  writable := fun hw => ht.writable (.inr (hw.resolve_left id))
  tmpDirs := ht.tmpDirs
  alive := ht.alive
  rewriter := ht.rewriter
  received := False.elim
  waiting := by simp
  pruning := by simp
  error := rfl

theorem DB.Tracks.closing (ht : db.Tracks h d) (hheld : db.phase.held = []) {phase : Phase}
    (hphase : phase = .waitQuit ∨ phase = .closeQuit ∨ ∃ err, phase = .closeRewrite err)
    (halive : ∀ c ∈ walChan, c.writer.Dead → c.writer = .quit ∧ c.closed = true) :
    Tracks { db with walChan, phase } h d where
  state := by
    obtain ⟨st,hat,hinfo,hfollows,-⟩ := ht.state
    refine ⟨st,hat,hinfo,fun _ => (hfollows hheld).congr rfl rfl,?_⟩
    rcases hphase with rfl | rfl | ⟨err,rfl⟩ <;> exact False.elim
  sent := by rcases hphase with rfl | rfl | ⟨err,rfl⟩ <;> exact False.elim
  first := ht.first
  base := ht.base
  writable := by
    refine fun hw => ht.writable (.inr (hw.resolve_left ?_))
    rcases hphase with rfl | rfl | ⟨err,rfl⟩ <;> exact id
  tmpDirs := ht.tmpDirs
  alive := halive
  rewriter := ht.rewriter
  received := by rcases hphase with rfl | rfl | ⟨err,rfl⟩ <;> exact False.elim
  waiting := by rcases hphase with rfl | rfl | ⟨err,rfl⟩ <;> simp
  pruning := by rcases hphase with rfl | rfl | ⟨err,rfl⟩ <;> simp
  error := by rcases hphase with rfl | rfl | ⟨err,rfl⟩ <;> rfl

theorem DB.Tracks.sentOn (ht : db.Tracks h d) (hcommit : db.phase.Committing)
    {pendingLog : WALEntry} {rewriter : Option Rewriter} {phase : Phase}
    (hpending : pendingLog = {}) (herror : phase.error? = none)
    (halive : ∀ c ∈ walChan, c.writer.Dead → c.writer = .quit ∧ c.closed = true)
    (hrewriter : ∀ r ∈ rewriter, r.Tracks h d) (hreceived : phase.Switching → rewriter = none)
    (hwaiting : ∀ v err t, phase = .waiting v err t → h.Starts d t)
    (hpruning : ∀ v err, phase ≠ .pruning v err) :
    Tracks { db with walChan, pendingLog, rewriter, phase } h d where
  state := by
    obtain ⟨st,hat,hinfo,-,hst⟩ := ht.state
    obtain rfl := hst hcommit
    exact ⟨_,hat,hinfo,fun _ => ⟨by rw [hpending]; rfl,by simp [hpending]⟩,fun _ => rfl⟩
  sent := fun _ _ => hpending
  first := ht.first
  base := ht.base
  writable := fun _ => ht.writable (.inl hcommit)
  tmpDirs := ht.tmpDirs
  alive := halive
  rewriter := hrewriter
  received := hreceived
  waiting := hwaiting
  pruning := fun v err hphase => absurd hphase (hpruning v err)
  error := herror

theorem DB.Tracks.setRewriter (ht : db.Tracks h d) {r : Option Rewriter}
    (hr : ∀ x ∈ r, x.Tracks h d) (hreceived : db.phase.Switching → r = none)
    (hwritable : db.opts.readOnly = false) : Tracks { db with rewriter := r } h d where
  state := by
    obtain ⟨st,hat,hinfo,hfollows,hcommit⟩ := ht.state
    exact ⟨st,hat,hinfo,fun hheld => (hfollows hheld).congr rfl rfl,hcommit⟩
  sent := ht.sent
  first := ht.first
  base := ht.base
  writable := fun _ => hwritable
  tmpDirs := ht.tmpDirs
  alive := ht.alive
  rewriter := hr
  received := hreceived
  waiting := ht.waiting
  pruning := ht.pruning
  error := ht.error

theorem DB.Tracks.setWalChan (ht : db.Tracks h d)
    (halive : ∀ c ∈ walChan, c.writer.Dead → c.writer = .quit ∧ c.closed = true) :
    Tracks { db with walChan } h d where
  state := by
    obtain ⟨st,hat,hinfo,hfollows,hcommit⟩ := ht.state
    exact ⟨st,hat,hinfo,fun hheld => (hfollows hheld).congr rfl rfl,hcommit⟩
  sent := ht.sent
  first := ht.first
  base := ht.base
  writable := ht.writable
  tmpDirs := ht.tmpDirs
  alive := halive
  rewriter := ht.rewriter
  received := ht.received
  waiting := ht.waiting
  pruning := ht.pruning
  error := ht.error

theorem DB.Tracks.initialVersion (ht : db.Tracks h d) (hv : h.Valid) :
    db.mtree.initialVersion = h.start.initialVersion := by
  obtain ⟨st,hat,-,hfollows,hcommit⟩ := ht.state
  rw [← (hv.version hat).initialVersion]
  by_cases hheld : db.phase.held = []
  · have hsame := sameVersion_applyWALEntry st db.pendingLog
    rw [(hfollows hheld).applied] at hsame
    exact hsame.initialVersion
  · have hcommitting : db.phase.Committing := by
      cases hphase : db.phase <;> first | trivial | exact absurd (by rw [hphase]; rfl) hheld
    exact (congrArg MultiTree.initialVersion (hcommit hcommitting) :)

theorem DB.Tracks.shows (ht : db.Tracks h d) (hphase : db.phase.Committing) (hsane : db.mtree.Sane) :
    h.Shows db.mtree.position db.mtree := by
  obtain ⟨st,hat,hinfo,-,hcommit⟩ := ht.state
  obtain rfl := hcommit hphase
  exact ⟨hat,hinfo,hsane.snapshot⟩

end

namespace Disk

variable {d d' : Disk} {h : History} {leftover : List (ℕ × SnapshotDir)} {v : ℕ} {dir : SnapshotDir}

theorem mem_putDir_iff {dirs : List (ℕ × SnapshotDir)} {p : ℕ × SnapshotDir} :
    p ∈ putDir v dir dirs ↔ p = (v,dir) ∨ p ∈ dirs ∧ p.1 ≠ v := by
  rw [putDir,mem_orderedInsert,mem_filter,decide_eq_true_eq]

theorem sorted_putDir {dirs : List (ℕ × SnapshotDir)}
    (h : (dirs.map Prod.fst).Pairwise (· < ·)) (v : ℕ) (dir : SnapshotDir) :
    ((putDir v dir dirs).map Prod.fst).Pairwise (· < ·) := by
  have hrest : KeyedList.Strict Prod.fst (dirs.filter fun p => p.1 ≠ v) :=
    h.sublist (filter_sublist.map _)
  refine hrest.orderedInsert fun hmem => ?_
  obtain ⟨p,hp,rfl⟩ := List.mem_map.mp hmem
  simpa using (mem_filter.mp hp).2

namespace Keeps

section
variable (hd : d.Keeps h leftover)
include hd

theorem congr (hsnapshots : d'.snapshots = d.snapshots) (hcurrent : d'.current = d.current)
    (hwal : d'.wal = d.wal) : d'.Keeps h leftover := by
  refine ⟨?_,?_,?_,?_,?_⟩
  · rw [hsnapshots]
    exact hd.stored
  · rw [versions,hsnapshots]
    exact hd.sorted
  · rw [hsnapshots,hcurrent]
    exact hd.current
  · rw [hwal]
    exact hd.logged
  · rw [versions,hsnapshots,hwal]
    exact hd.covered

theorem setWal {wal : IndexedLog WALEntry} (hl : h.Logs wal)
    (hcovered : ∀ v ∈ d.versions, wal.base ≤ entriesAt v h.start.initialVersion) :
    Keeps { d with wal } h leftover :=
  ⟨hd.stored,hd.sorted,hd.current,hl,hcovered⟩

theorem extend (e : WALEntry) : d.Keeps (h.extend e) leftover := by
  obtain ⟨p,hp,hcurrent,hs⟩ := hd.current
  exact ⟨fun p hp => (hd.stored p hp).imp_left fun hs => hs.extend e,hd.sorted,
    ⟨p,hp,hcurrent,hs.extend e⟩,hd.logged.extend e,hd.covered⟩

theorem put (hnew : v ∉ d.versions) (hs : h.Stores (v,dir))
    (hbase : d.wal.base ≤ entriesAt v h.start.initialVersion) (tmpDirs : List (ℕ × SnapshotDir)) :
    Keeps { d with snapshots := putDir v dir d.snapshots, tmpDirs } h leftover := by
  have hne : ∀ p ∈ d.snapshots, p.1 ≠ v := fun p hp heq => hnew (heq ▸ List.mem_map_of_mem hp)
  refine ⟨?_,sorted_putDir hd.sorted v dir,?_,hd.logged,?_⟩
  · intro p hp
    rcases mem_putDir hp with rfl | hp
    · exact .inl hs
    · exact hd.stored p hp
  · obtain ⟨p,hp,hcurrent,hs⟩ := hd.current
    exact ⟨p,mem_putDir_iff.mpr (.inr ⟨hp,hne p hp⟩),hcurrent,hs⟩
  · intro w hw
    obtain ⟨p,hp,rfl⟩ := List.mem_map.mp hw
    rcases mem_putDir hp with rfl | hp
    · exact hbase
    · exact hd.covered p.1 (List.mem_map_of_mem hp)

theorem setCurrent (hmem : (v,dir) ∈ d.snapshots) (hs : h.Stores (v,dir)) (currentTmp : Option ℕ) :
    Keeps { d with current := some v, currentTmp } h leftover :=
  ⟨hd.stored,hd.sorted,⟨(v,dir),hmem,rfl,hs⟩,hd.logged,hd.covered⟩

theorem removeSnapshot (hv : ∀ c ∈ d.current, v ≠ c) : (d.removeSnapshot v).Keeps h leftover := by
  have hsub : ∀ p, p ∈ removeDir v d.snapshots ↔ p ∈ d.snapshots ∧ p.1 ≠ v := by
    simp [removeDir]
  unfold Disk.removeSnapshot
  split
  · exact hd
  refine ⟨fun p hp => hd.stored p ((hsub p).mp hp).1,?_,?_,hd.logged,?_⟩
  · exact hd.sorted.sublist (filter_sublist.map _)
  · obtain ⟨p,hp,hcurrent,hs⟩ := hd.current
    exact ⟨p,(hsub p).mpr ⟨hp,(hv p.1 hcurrent).symm⟩,hcurrent,hs⟩
  · intro w hw
    obtain ⟨p,hp,rfl⟩ := List.mem_map.mp hw
    exact hd.covered p.1 (List.mem_map_of_mem ((hsub p).mp hp).1)

theorem current_mem {c : ℕ} (hc : c ∈ d.current) : c ∈ d.versions := by
  obtain ⟨p,hp,hcurrent,-⟩ := hd.current
  rw [hcurrent] at hc
  cases hc
  exact List.mem_map_of_mem hp

theorem current_le (hv : h.Valid) {c : ℕ} (hc : c ∈ d.current) :
    entriesAt c h.start.initialVersion ≤ h.entries.length := by
  obtain ⟨p,-,hcurrent,hs⟩ := hd.current
  rw [hcurrent] at hc
  cases hc
  obtain ⟨t,-,-,ht⟩ := hs.load hv
  exact ht.state.1

theorem current_committable (hv : h.Valid) {c : ℕ} (hc : c ∈ d.current) :
    Committable c h.start.initialVersion := by
  obtain ⟨p,-,hcurrent,hs⟩ := hd.current
  rw [hcurrent] at hc
  cases hc
  obtain ⟨t,-,hversion,ht⟩ := hs.load hv
  rw [← hversion,← ht.initialVersion hv]
  exact (ht.sane hv).committable

theorem current_le_version (hv : h.Valid) {st : MultiTree} (hst : h.At h.entries.length st)
    (hne : st.version ≠ 0) {c : ℕ} (hc : c ∈ d.current) : c ≤ st.version := by
  have hver := hv.version hst
  have hcom := hver.sane.committable
  rw [hver.initialVersion,Committable] at hcom
  refine le_of_entriesAt_le (hcom.resolve_left hne) ?_
  have hposition := hver.position
  rw [position,hver.initialVersion] at hposition
  rw [walIndex_of_pos (Nat.pos_of_ne_zero hne),hposition]
  exact hd.current_le hv hc

end

end Keeps

end Disk

end Memiavl
