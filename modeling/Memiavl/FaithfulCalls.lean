import Memiavl.Faithful

/-! Orderly calls keep the system faithful to a history that only grows: what a call does when
it starts. -/
namespace Memiavl

open MultiTree List

namespace History

variable {h h' h'' : History}

/-- What `Commit` has told its user is in the history. -/
def Tells (h : History) : Event → Prop
  | .committed e => 0 < e.index ∧ h.entries[e.index-1]? = some e.data
  | .returned .commit (.version v) view =>
    ∃ k t, h.Shows k t ∧ t.version = v ∧ v ≠ 0 ∧ t.view = view
  | .returned .commit _ _ => False
  | .returned _ _ _ => True

/-- A later history, in which what was known before is still true. -/
structure Leads (h h' : History) : Prop where
  shows : ∀ k t, t.version ≠ 0 → h.Shows k t → h'.Shows k t
  entries : ∃ es, h'.entries = h.entries ++ es
  start : h'.start.version = h.start.version

theorem Leads.refl (h : History) : h.Leads h := ⟨fun _ _ _ ht => ht,⟨[],by simp⟩,rfl⟩

theorem Leads.trans (hl : h.Leads h') (hl' : h'.Leads h'') : h.Leads h'' := by
  obtain ⟨es,hes⟩ := hl.entries
  obtain ⟨es',hes'⟩ := hl'.entries
  exact ⟨fun k t hv ht => hl'.shows k t hv (hl.shows k t hv ht),⟨es ++ es',by
    rw [hes',hes,append_assoc]⟩,hl'.start.trans hl.start⟩

theorem leads_extend (h : History) (e : WALEntry) : h.Leads (h.extend e) :=
  ⟨fun _ _ _ ht => ht.extend e,⟨[e],rfl⟩,rfl⟩

theorem Leads.tells (hl : h.Leads h') {ev : Event} (ht : h.Tells ev) : h'.Tells ev := by
  unfold Tells at ht ⊢
  split at ht
  · obtain ⟨es,hes⟩ := hl.entries
    obtain ⟨hpos,hdata⟩ := ht
    obtain ⟨hlt,-⟩ := List.getElem?_eq_some_iff.mp hdata
    exact ⟨hpos,by rw [hes,getElem?_append_left hlt,hdata]⟩
  · obtain ⟨k,t,hs,hversion,hv,hview⟩ := ht
    exact ⟨k,t,hl.shows k t (hversion ▸ hv) hs,hversion,hv,hview⟩
  · exact ht
  · trivial

end History

namespace DB

/-- Calls that return without an error and keep to the order of a version: upgrades come before
change sets, a new initial version before all trees have one, snapshots are rewritten when
nothing is pending, and a version that the log has already is committed with the same changes. -/
def Regular (db : DB) (d : Disk) : Call → Prop
  | .setInitialVersion iv =>
    (∀ e ∈ db.mtree.trees, e.tree.version = 0) ∧ (db.setInitialVersion d iv).2 = none
  | .commit => db.opts.readOnly = false ∧ (∀ e ∈ db.mtree.trees, e.tree.version.toNat ≠ maxUint32) ∧
      db.mtree.position+1 < 2^63 ∧ ∀ e ∈ d.wal.read (db.mtree.position+1), db.pendingLog = e
  | .rewriteSnapshot =>
    db.rewriter = none ∧ db.pendingLog = {} ∧ db.mtree.version ≠ 0 ∧ db.mtree.Fits
  | .rewriteSnapshotBackground => db.pendingLog = {} ∧ db.mtree.version ≠ 0
  | c => db.Orderly c ∧ ∀ p ∈ db.edit c, p.2 = none

instance (db : DB) (d : Disk) (c : Call) : Decidable (db.Regular d c) := by
  induction c using Call.casesOn <;> dsimp only [Regular] <;> infer_instance

end DB

namespace System

/-- Actions that keep to the rules: no write fails, the process does not end, and a snapshot that
is written fits its format. Directories that are left over from another history can only be
avoided by loading the latest version. -/
def Regular (leftover : List (ℕ × SnapshotDir)) (s : System) : Act → Prop
  | .load o => o.targetVersion = 0 ∨ o.loadForOverwriting = false ∧ leftover = []
  | .call c => ∀ db ∈ s.db, db.Regular s.disk c
  | .proceed failure => failure = none
  | .write failure => failure = none
  | .rewrite _ => ∀ db ∈ s.db, ∀ r ∈ db.rewriter, r.stage = .writing → r.cloned.Fits
  | .prune => True
  | .crash _ | .interrupt .. => False

instance (leftover : List (ℕ × SnapshotDir)) (s : System) (a : Act) :
    Decidable (System.Regular leftover s a) := by
  induction a using Act.casesOn <;> dsimp only [System.Regular] <;> infer_instance

/-- Every version of the history was returned by a `Commit`, or is going to be. -/
def Told (s : System) (h : History) : Prop := ∀ k, 0 < k → k ≤ h.entries.length →
  (∃ t view, h.Shows k t ∧ Event.returned .commit (.version t.version) view ∈ s.trace) ∨
    ∃ db ∈ s.db, db.phase.Committing ∧ db.mtree.position = k

/-- A later state, faithful to a later history, with what calls have returned since then. -/
structure GoesTo (s : System) (h : History) (leftover : List (ℕ × SnapshotDir)) (h' : History)
    (s' : System) : Prop where
  leads : h.Leads h'
  faithful : s'.Faithful h' leftover
  trace : ∃ events, s'.trace = s.trace ++ events ∧ ∀ ev ∈ events, h'.Tells ev
  told : s.Told h → s'.Told h'

def Goes (s : System) (h : History) (leftover : List (ℕ × SnapshotDir)) (s' : System) : Prop :=
  ∃ h', s.GoesTo h leftover h' s'

variable {s s' : System} {h : History} {leftover : List (ℕ × SnapshotDir)} {db db' : DB}

/-- A `Commit` that is running goes on. -/
def Pursues (s s' : System) : Prop := ∀ db ∈ s.db, db.phase.Committing →
  ∃ db' ∈ s'.db, db'.phase.Committing ∧ db'.mtree.position = db.mtree.position

namespace Pursues

theorem of_not (hdb : s.db = some db) (hnot : ¬db.phase.Committing) : Pursues s s' := by
  intro x hx hc
  rw [hdb] at hx
  cases hx
  exact absurd hc hnot

theorem of_none (hdb : s.db = none) : Pursues s s' := by
  intro x hx
  rw [hdb] at hx
  cases hx

theorem of_some (hdb : s.db = some db) (hdb' : s'.db = some db') (hc : db'.phase.Committing)
    (hposition : db'.mtree.position = db.mtree.position) : Pursues s s' := by
  intro x hx _
  rw [hdb] at hx
  cases hx
  exact ⟨db',hdb',hc,hposition⟩

theorem of_phase (hdb : s.db = some db) (hdb' : s'.db = some db') (hphase : db'.phase = db.phase)
    (hmtree : db'.mtree = db.mtree) : Pursues s s' := by
  intro x hx hc
  rw [hdb] at hx
  cases hx
  exact ⟨db',hdb',by rwa [hphase],by rw [hmtree]⟩

theorem of_db (hdb : s'.db = s.db) : Pursues s s' := fun x hx hc => ⟨x,by rw [hdb]; exact hx,hc,rfl⟩

end Pursues

theorem Told.same (ht : s.Told h) (htrace : ∀ ev ∈ s.trace, ev ∈ s'.trace) (hpursues : Pursues s s') :
    s'.Told h := by
  intro k hk hle
  rcases ht k hk hle with ⟨t,view,hshows,hev⟩ | ⟨db,hdb,hc,rfl⟩
  · exact .inl ⟨t,view,hshows,htrace _ hev⟩
  · exact .inr (hpursues db hdb hc)

theorem goes_same {events : List Event} (hs : s'.Faithful h leftover)
    (htrace : s'.trace = s.trace ++ events) (htells : ∀ ev ∈ events, h.Tells ev)
    (hpursues : Pursues s s') : s.GoesTo h leftover h s' := by
  refine ⟨.refl h,hs,⟨events,htrace,htells⟩,fun ht => ht.same (fun ev hev => ?_) hpursues⟩
  rw [htrace]
  exact mem_append_left _ hev

theorem Faithful.setDb (hs : s.Faithful h leftover) (hdb : s.db = some db)
    (ht : db'.Tracks h s.disk) (hflight : db'.flight = db.flight)
    (hposition : db'.mtree.position = db.mtree.position)
    (hrewriter : ∀ r ∈ db'.rewriter, (∃ r₀ ∈ db.rewriter, r.cloned = r₀.cloned) ∨
      r.cloned.version = db.mtree.version) (trace : List Event) :
    Faithful { s with db := some db', trace } h leftover := by
  refine ⟨hs.valid,hs.small,hs.disk,?_,?_,?_,hs.leftover⟩
  · have hc := hs.flight
    rw [flight_some hdb] at hc
    rw [flight_some rfl,hflight]
    exact hc
  · rintro x ⟨⟩
    exact ht
  · intro p hp
    have hpr := hs.pruner p hp
    refine ⟨?_,?_,hpr.removing⟩
    · rintro x ⟨⟩
      exact hposition.trans (hpr.latest db hdb)
    · rintro x ⟨⟩ r hr c hc
      rcases hrewriter r hr with ⟨r₀,hr₀,heq⟩ | heq
      · rw [heq]
        exact hpr.behind db hdb r₀ hr₀ c hc
      · obtain ⟨st,hat,hinfo,-⟩ := (hs.db db hdb).state
        rw [hpr.latest db hdb] at hat
        have hversion : db.mtree.version = st.version := (congrArg CommitInfo.version hinfo :)
        have hne := (ht.rewriter r hr).version
        rw [heq,hversion] at hne ⊢
        exact hs.disk.current_le_version hs.valid hat hne hc

theorem GoesTo.refl (hs : s.Faithful h leftover) : s.GoesTo h leftover h s :=
  goes_same hs (List.append_nil _).symm (by simp) (.of_db rfl)

theorem GoesTo.trans {s₁ : System} {h₁ h₂ : History} (hg : s.GoesTo h leftover h₁ s₁)
    (hg' : s₁.GoesTo h₁ leftover h₂ s') : s.GoesTo h leftover h₂ s' := by
  obtain ⟨events,htrace,htells⟩ := hg.trace
  obtain ⟨events',htrace',htells'⟩ := hg'.trace
  refine ⟨hg.leads.trans hg'.leads,hg'.faithful,⟨events ++ events',by
    rw [htrace',htrace,append_assoc],?_⟩,fun ht => hg'.told (hg.told ht)⟩
  intro ev hev
  rcases mem_append.mp hev with hev | hev
  · exact hg'.leads.tells (htells ev hev)
  · exact htells' ev hev

variable {v : ℕ} {mtree : MultiTree}

theorem goes_finishCommit (hs : s.Faithful h leftover) (hdb : s.db = some db)
    (hsane : db.mtree.Sane) (hcommit : db.phase.Committing) (hheld : db.phase.held = [])
    (hversion : db.mtree.version = v) (hv : v ≠ 0) :
    s.GoesTo h leftover h (s.finishCommit db v none) := by
  have ht := hs.db db hdb
  have hshows := ht.shows hcommit hsane
  have hflight : db.flight = db.chanFlight := flight_of_held_nil hheld
  have htells : ∀ ev ∈ [Event.returned .commit (.version v) db.mtree.view], h.Tells ev := by
    intro ev hev
    rw [mem_singleton.mp hev]
    exact ⟨_,_,hshows,hversion,hv,rfl⟩
  have htold : ∀ s' : System, s'.trace =
      s.trace ++ [Event.returned .commit (.version v) db.mtree.view] → s.Told h → s'.Told h := by
    intro s' htrace ht k hk hle
    rw [htrace]
    rcases ht k hk hle with ⟨t,view,hshows,hev⟩ | ⟨x,hx,-,rfl⟩
    · exact .inl ⟨t,view,hshows,mem_append_left _ hev⟩
    · rw [hdb] at hx
      cases hx
      exact .inl ⟨db.mtree,_,hshows,mem_append_right _ (by rw [hversion]; exact .head _)⟩
  have hfinishes := finishes_finishCommit s db v none
  generalize s.finishCommit db v none = s' at hfinishes ⊢
  cases hfinishes with
  | kept =>
    refine ⟨.refl h,hs.setDb hdb (ht.idle hheld) ?_ rfl ?_ _,⟨_,rfl,htells⟩,htold _ rfl⟩
    · exact (flight_of_held_nil rfl).trans hflight.symm
    · exact fun r hr => .inl ⟨r,hr,rfl⟩
  | clones hr _ =>
    have hnew : ∀ r ∈ some ({ cloned := db.mtree } : Rewriter), r.Tracks h s.disk := by
      rintro r ⟨⟩
      exact ⟨⟨_,hshows⟩,hversion ▸ hv,ht.base,by simp,by simp,by simp,by simp⟩
    refine ⟨.refl h,hs.setDb hdb ((ht.idle hheld).setRewriter hnew False.elim
      (ht.writable (.inl hcommit))) ?_ rfl ?_ _,⟨_,rfl,htells⟩,htold _ rfl⟩
    · exact (flight_of_held_nil rfl).trans hflight.symm
    · rintro r ⟨⟩
      exact .inr rfl

theorem tracks_edit {d : Disk} (ht : db.Tracks h d) (hv : h.Valid) (hidle : db.phase = .idle)
    {c : Call} (ho : db.Orderly c) (he : db.edit c = some (db',none)) :
    DB.Tracks { db' with phase := .idle } h d := by
  have htouch := DB.touches_edit he
  have hposition := htouch.mtree.position_eq
  obtain ⟨st,hat,hinfo,hfollows,-⟩ := ht.state
  exact {
    state := by
      refine ⟨st,by rw [hposition]; exact hat,by rw [htouch.mtree.lastCommitInfo]; exact hinfo,
        fun _ => ?_,False.elim⟩
      have hfollows := hfollows (by rw [hidle]; rfl)
      exact (hfollows.edit (hv.version hat).proper ho he).congr rfl rfl
    sent := False.elim
    first := by rw [htouch.mtree.version_eq]; exact ht.first
    base := by rw [hposition]; exact ht.base
    writable := fun hw => by
      rw [htouch.opts]
      exact ht.writable (.inr (htouch.rewriter ▸ hw.resolve_left id))
    tmpDirs := by rw [htouch.opts]; exact ht.tmpDirs
    alive := by rw [htouch.walChan]; exact ht.alive
    rewriter := by rw [htouch.rewriter]; exact ht.rewriter
    received := False.elim
    waiting := by simp
    pruning := by simp
    error := rfl }

inductive Grows (h : History) : History → Prop
  | same : Grows h h
  | extended (e : WALEntry) : Grows h (h.extend e)

namespace Grows
variable {h' : History} (hg : Grows h h') {d : Disk}
include hg

theorem leads : h.Leads h' := by
  cases hg with
  | same => exact .refl h
  | extended e => exact h.leads_extend e

theorem keeps (hd : d.Keeps h leftover) : d.Keeps h' leftover := by
  cases hg with
  | same => exact hd
  | extended e => exact hd.extend e

theorem stores {p : ℕ × SnapshotDir} (hp : h.Stores p) : h'.Stores p := by
  cases hg with
  | same => exact hp
  | extended e => exact hp.extend e

theorem rewriter {r : Rewriter} (hr : r.Tracks h d) : r.Tracks h' d := by
  cases hg with
  | same => exact hr
  | extended e => exact hr.extend e

end Grows

theorem version_saved {t t' : MultiTree} (h : t.saveVersion true = (t',.ok v)) :
    v = nextVersion t.version t.initialVersion := by
  have hadv := advances_saveVersion t true
  rw [h] at hadv
  exact (saveVersion_ok_version h).symm.trans hadv.version

theorem index_entry (hsane : db.mtree.Sane) (hsave : db.mtree.saveVersion true = (mtree,.ok v)) :
    (db.entry mtree v).index = db.mtree.position+1 := by
  have hadv := advances_saveVersion db.mtree true
  rw [hsave] at hadv
  have hversion := saveVersion_ok_version hsave
  have hpos : 0 < v := by
    rw [← hversion,hadv.version]
    exact (Nat.zero_le _).trans_lt (lt_nextVersion ..)
  rw [← hadv.position_eq hsane,position,hversion,← walIndex_of_pos hpos]
  rfl

section
variable (hok : s.Ok) (hs : s.Faithful h leftover) (hdb : s.db = some db) (hidle : db.phase = .idle)
  (hr : db.Regular s.disk .commit)
include hok hs hdb hidle hr

/-- A version that is saved is the next one of the history, or was there already. -/
theorem exists_grows (hsave : db.mtree.saveVersion true = (mtree,.ok v)) :
    ∃ h', Grows h h' ∧ h'.Valid ∧ h'.entries.length < 2^63 ∧
      h'.Carries s.disk.wal (s.flight ++ [db.entry mtree v]) ∧ h'.Shows mtree.position mtree ∧
      (db.mtree.position = h.entries.length → mtree.position = h'.entries.length) ∧
      ∀ k, h.entries.length < k → k ≤ h'.entries.length → mtree.position = k := by
  obtain ⟨-,-,hsmall,hsame⟩ := hr
  have ht := hs.db db hdb
  have hbase := (hok.db db hdb).base
  obtain ⟨st,hat,hinfo,hfollows,-⟩ := ht.state
  have hfollows := hfollows (by rw [hidle]; rfl)
  have hadv := advances_saveVersion db.mtree true
  rw [hsave] at hadv
  have hposition := hadv.position_eq hbase.sane
  have hreplay : st.replay db.pendingLog = .ok mtree.bare := by
    refine replay_eq_ok.mpr ⟨_,v,hfollows.applied,?_⟩
    rw [bare_saveVersion db.mtree true,hsave]
  have hshows : ∀ h' : History, h'.At mtree.position mtree.bare → h'.Shows mtree.position mtree :=
    fun h' hat' => ⟨hat',lastCommitInfo_saveVersion hsave,(hadv.sane hbase.sane).snapshot⟩
  have hindex := index_entry hbase.sane hsave
  have hbound : ∀ e ∈ s.flight, e.index ≤ db.mtree.position := by
    rw [flight_some hdb]
    exact (hok.db db hdb).flight_bound
  rcases Nat.lt_or_ge db.mtree.position h.entries.length with hlt | hge
  · -- The log is complete and has the entry.
    have hlast : s.disk.wal.lastIndex = h.entries.length :=
      (hs.flight.lastIndex_or_le hbound).resolve_right (by omega)
    have hread := hs.flight.read_eq ht.base (by omega)
    rw [getElem?_eq_getElem hlt] at hread
    have hdata : h.entries[db.mtree.position]? = some db.pendingLog := by
      rw [getElem?_eq_getElem hlt,hsame _ hread]
    refine ⟨h,.same,hs.valid,hs.small,hs.flight.commit_again hlast hindex hdata,
      hshows h ?_,fun heq => by omega,fun k hlt hle => by omega⟩
    rw [hposition]
    exact (hat.succ hdata).mpr hreplay
  · have heq : db.mtree.position = h.entries.length := le_antisymm hat.1 hge
    rw [heq] at hat
    refine ⟨h.extend db.pendingLog,.extended _,hs.valid.extend hat hreplay,?_,
      hs.flight.commit (by rw [hindex,heq]),hshows _ ?_,fun _ => ?_,fun k hlt hle => ?_⟩
    · rw [History.length_extend,← heq]
      exact hsmall
    · rw [hposition,heq]
      exact hat.next hreplay
    · rw [hposition,heq,History.length_extend]
    · rw [History.length_extend] at hle
      rw [hposition,heq]
      omega

theorem goes_saved (hsave : db.mtree.saveVersion true = (mtree,.ok v))
    {walChan : Option AsyncCommit} {phase : Phase}
    (hflight : (walChan.map AsyncCommit.flight).getD [] = db.chanFlight)
    (halive : ∀ c ∈ walChan, c.writer.Dead → c.writer = .quit ∧ c.closed = true)
    (hphase : phase = .sending v (db.entry mtree v) ∨ phase = .writing v (db.entry mtree v)) :
    ∃ h', s.GoesTo h leftover h'
      ({ s with trace := s.trace ++ [Event.committed (db.entry mtree v)] }.put
        { db with mtree, walChan, phase }) ∧
      (db.mtree.position = h.entries.length → mtree.position = h'.entries.length) := by
  obtain ⟨h',hg,hv,hsmall,hcarries,hshows,hlatest,hadded⟩ := exists_grows hok hs hdb hidle hr hsave
  have ht := hs.db db hdb
  have hadv := advances_saveVersion db.mtree true
  rw [hsave] at hadv
  have hposition := hadv.position_eq (hok.db db hdb).base.sane
  have hne : mtree.version ≠ 0 := by
    rw [hadv.version]
    exact (Nat.zero_le _).trans_lt (lt_nextVersion ..) |>.ne'
  have hheld : phase.held = [db.entry mtree v] := by
    rcases hphase with rfl | rfl <;> rfl
  have hnamed := hcarries.named (db.entry mtree v) (by simp)
  refine ⟨h',⟨hg.leads,⟨hv,hsmall,hg.keeps hs.disk,?_,?_,?_,hs.leftover⟩,
    ⟨[.committed (db.entry mtree v)],rfl,?_⟩,?_⟩,hlatest⟩
  · have hold : s.flight = db.chanFlight := by
      rw [flight_some hdb,flight_of_held_nil (by rw [hidle]; rfl)]
    rw [hold] at hcarries
    rw [flight_put,DB.flight,DB.chanFlight,hflight,hheld]
    exact hcarries
  · rintro x ⟨⟩
    exact {
      state := ⟨mtree.bare,hshows.state,hshows.info.trans rfl,fun hnil => by simp [hheld] at hnil,
        fun _ => rfl⟩
      sent := fun _ hnil => by simp [hheld] at hnil
      first := fun h0 => absurd h0 hne
      base := by
        have := ht.base
        simp only [put,hposition]
        omega
      writable := fun _ => hr.1
      tmpDirs := fun hro p hp => ⟨(ht.tmpDirs hro p hp).1,hg.stores (ht.tmpDirs hro p hp).2⟩
      alive := halive
      rewriter := fun r hr => hg.rewriter (ht.rewriter r hr)
      received := by rcases hphase with rfl | rfl <;> exact False.elim
      waiting := by rcases hphase with rfl | rfl <;> simp
      pruning := by rcases hphase with rfl | rfl <;> simp
      error := by rcases hphase with rfl | rfl <;> rfl }
  · intro p hp
    have hpr := hs.pruner p hp
    refine ⟨?_,?_,hpr.removing⟩
    · rintro x ⟨⟩
      exact hlatest (hpr.latest db hdb)
    · rintro x ⟨⟩
      exact hpr.behind db hdb
  · intro ev hev
    rw [mem_singleton.mp hev]
    exact hnamed
  · intro htold k hk hle
    rcases Nat.lt_or_ge h.entries.length k with hlt | hge
    · refine .inr ⟨_,rfl,by rcases hphase with rfl | rfl <;> trivial,?_⟩
      exact hadded k hlt hle
    · rcases htold k hk hge with ⟨t,view,ht,hev⟩ | ⟨x,hx,hcommit,-⟩
      · refine .inl ⟨t,view,hg.leads.shows k t ?_ ht,mem_append_left _ hev⟩
        exact ht.version_ne_zero hs.valid hk
      · rw [hdb] at hx
        cases hx
        rw [hidle] at hcommit
        exact hcommit.elim

theorem goes_commit (hstart : Starts s db .commit s') :
    ∃ h' db' v e, s.GoesTo h leftover h' s' ∧ s'.db = some db' ∧
      (db'.phase = .sending v e ∨ db'.phase = .writing v e) ∧
      v = nextVersion db.mtree.version db.mtree.initialVersion ∧
      s'.trace = s.trace ++ [.committed e] ∧ e.index = db.mtree.position+1 ∧
      (db.mtree.position = h.entries.length → db'.mtree.position = h'.entries.length) := by
  have ht := hs.db db hdb
  have hsane := (hok.db db hdb).base.sane
  cases hstart with
  | refused r _ hcommit =>
    have hro := hcommit rfl
    rw [hr.1] at hro
    cases hro
  | edited he => cases he
  | saveFailed _ he =>
    obtain ⟨t,v,hsave⟩ := exists_saveVersion hr.2.1 true
    rw [hsave] at he
    cases he
  | sends hro hsave hbuf =>
    have halive : ∀ c ∈ some (db.walChan.getD { size := db.opts.asyncCommitBuffer.toNat }),
        c.writer.Dead → c.writer = .quit ∧ c.closed = true := by
      cases hc : db.walChan with
      | none =>
        rintro c ⟨⟩ hdead
        cases hdead
      | some c => exact hc ▸ ht.alive
    obtain ⟨h',hg,hlatest⟩ := goes_saved hok hs hdb hidle hr hsave (by
      cases hc : db.walChan <;> simp [DB.chanFlight,hc,AsyncCommit.flight,Writer.Dead,Writer.items])
      halive (.inl rfl)
    exact ⟨h',_,_,_,hg,rfl,.inl rfl,version_saved hsave,rfl,index_entry hsane hsave,hlatest⟩
  | writes hro hsave hbuf =>
    obtain ⟨h',hg,hlatest⟩ := goes_saved hok hs hdb hidle hr hsave rfl ht.alive (.inr rfl)
    exact ⟨h',_,_,_,hg,rfl,.inr rfl,version_saved hsave,rfl,index_entry hsane hsave,hlatest⟩
  | closes _ hcall => rcases hcall with ⟨⟨⟩,-⟩ | ⟨⟨⟩,-⟩

end

end System

namespace History

variable {h : History} {k : ℕ} {t : MultiTree} {iv : UInt32}

/-- The empty history with another initial version. -/
def reset (h : History) (iv : UInt32) : History := { start := { h.start with initialVersion := iv } }

theorem Shows.eq_start (ht : h.Shows k t) (hnil : h.entries = []) : t.bare = h.start := by
  obtain ⟨-,hr⟩ := ht.state
  rw [hnil,take_nil] at hr
  exact (Except.ok.inj hr).symm

theorem Shows.version_eq (ht : h.Shows k t) (hnil : h.entries = []) :
    t.version = h.start.version := by
  rw [← ht.eq_start hnil,version_bare]

theorem Valid.reset (hv : h.Valid) (h0 : h.start.version = 0) : (h.reset iv).Valid where
  bare := congrArg (fun t : MultiTree => { t with initialVersion := iv }) hv.bare
  sane := ⟨.inl h0,hv.sane.snapshot⟩
  position := by
    change entriesAt h.start.version iv = 0
    rw [h0]
    rfl
  proper := ⟨⟨hv.proper.indexed.strict,hv.proper.indexed.index⟩,hv.proper.avl⟩
  saved := hv.saved
  empty := hv.empty
  replays := ⟨_,rfl⟩

theorem Valid.stores_empty (hv : h.Valid) (h0 : h.start.version = 0) :
    (h.reset iv).Stores (0,(newEmpty iv).writeSnapshot []) := by
  have htrees := hv.empty h0
  have hstart : h.start = { initialVersion := h.start.initialVersion } := by
    have hbare := hv.bare
    have hindex := hv.proper.indexed.index
    rw [htrees] at hindex
    rw [MultiTree.bare,h0,htrees,hindex] at hbare
    exact hbare.symm
  have hproper : (newEmpty iv).Proper := ⟨⟨List.Pairwise.nil,rfl⟩,by simp [newEmpty]⟩
  refine ⟨0,_,load_writeSnapshot hproper (by simp [Saved,newEmpty])
    ⟨Nat.zero_le _,by simp [newEmpty,PlainNames]⟩ (by simp),rfl,⟨⟨Nat.zero_le _,?_⟩,rfl,le_refl _⟩⟩
  have hreset : (h.reset iv).start = newEmpty iv := by
    rw [History.reset,hstart]
    rfl
  rw [hreset]
  rfl

end History

namespace Disk

variable {d d' : Disk} {h : History} {leftover : List (ℕ × SnapshotDir)} {iv : UInt32}

theorem updateCurrentSymlink_eq_ok {v : ℕ} (h : d.updateCurrentSymlink v = (d',none)) :
    d' = { d with current := some v, currentTmp := none } := by
  unfold updateCurrentSymlink linkTmp renameLink at h
  split at h
  · cases h
  · rename_i hl
    simp only [Option.ite_none_left_eq_some,Option.some.injEq] at hl
    obtain ⟨-,rfl⟩ := hl
    cases h
    rfl

theorem initEmptyDB_eq_ok (hd : d.initEmptyDB iv = (d',none)) : d' = { d with
    snapshots := putDir 0 ((newEmpty iv).writeSnapshot (oldTrees d.snapshots 0)) d.snapshots
    current := some 0
    currentTmp := none } := by
  rw [updateCurrentSymlink_eq_ok hd,writeEmpty]

section
variable (hd : d.Keeps h leftover) (hv : h.Valid) (hnil : h.entries = []) (h0 : h.start.version = 0)
include hd hv hnil h0

theorem Keeps.current_zero : d.current = some 0 := by
  obtain ⟨p,-,hcurrent,hs⟩ := hd.current
  obtain ⟨t,-,hversion,ht⟩ := hs.load hv
  rw [hcurrent,← hversion,ht.version_eq hnil,h0]

theorem Keeps.writeEmpty (hleft : ∀ p ∈ leftover, p.1 ≠ 0) :
    (d.writeEmpty iv).Keeps (h.reset iv) leftover := by
  have hold : oldTrees d.snapshots 0 = [] := by
    unfold oldTrees
    cases hl : d.snapshots.lookup 0 with
    | none => rfl
    | some dir =>
      have hs := (hd.stored _ (mem_of_lookup hl)).resolve_right fun hmem => hleft _ hmem rfl
      obtain ⟨t,hload,-,ht⟩ := hs.load hv
      have htrees : t.names = [] := by
        rw [names,← trees_bare,ht.eq_start hnil,hv.empty h0,map_nil]
      simp only [Option.map_some,Option.getD_some]
      refine eq_nil_iff_forall_not_mem.mpr fun f hf => ?_
      have := mem_names_load hload hf
      rw [htrees] at this
      cases this
  have hbase : d.wal.base = 0 := by
    have := hd.logged.le
    rw [hnil,IndexedLog.lastIndex] at this
    simp only [length_nil] at this
    omega
  rw [Disk.writeEmpty,hold]
  refine ⟨?_,sorted_putDir hd.sorted 0 _,?_,?_,?_⟩
  · intro p hp
    rcases mem_putDir_iff.mp hp with rfl | ⟨hp,hne⟩
    · exact .inl (hv.stores_empty h0)
    · refine .inr ((hd.stored p hp).resolve_left fun hs => ?_)
      obtain ⟨t,-,hversion,ht⟩ := hs.load hv
      exact hne (by rw [← hversion,ht.version_eq hnil,h0])
  · exact ⟨_,mem_putDir_iff.mpr (.inl rfl),hd.current_zero hv hnil h0,hv.stores_empty h0⟩
  · have hl := hd.logged
    rw [History.Logs,hnil] at hl
    exact hl
  · intro v _
    simp only [hbase]
    exact Nat.zero_le _

theorem Keeps.reset (hleft : ∀ p ∈ leftover, p.1 ≠ 0) (hinit : d.initEmptyDB iv = (d',none)) :
    d'.Keeps (h.reset iv) leftover := by
  rw [updateCurrentSymlink_eq_ok hinit]
  exact (hd.writeEmpty hv hnil h0 hleft).congr rfl (hd.current_zero hv hnil h0).symm rfl

end

end Disk

theorem DB.Tracks.start_version {db : DB} {h : History} {d : Disk} (ht : db.Tracks h d) (h0 : db.mtree.version = 0) :
    h.start.version = 0 := by
  obtain ⟨st,hat,hinfo,-⟩ := ht.state
  have hr := hat.2
  rw [ht.first h0,take_nil] at hr
  rw [← h0,Except.ok.inj hr]
  exact (congrArg CommitInfo.version hinfo :).symm

namespace System

variable {s s' : System} {h : History} {leftover : List (ℕ × SnapshotDir)} {db db' : DB}

theorem goes_initialised (hs : s.Faithful h leftover) (hdb : s.db = some db)
    (hidle : db.phase = .idle) {iv : ℤ} (hr : db.Regular s.disk (.setInitialVersion iv))
    (hro : db.opts.readOnly = false) (h0 : db.mtree.version = 0) {mtree : MultiTree}
    (hset : db.mtree.setInitialVersion iv = (mtree,none)) :
    ∃ h', s.GoesTo h leftover h'
      ({ s with disk := (s.disk.initEmptyDB mtree.initialVersion).1 }.ret { db with mtree }
        (.setInitialVersion iv) (.ofError (s.disk.initEmptyDB mtree.initialVersion).2)) ∧
      h'.entries.length = h.entries.length := by
  obtain ⟨hfresh,hnone⟩ := hr
  have hinit : s.disk.initEmptyDB mtree.initialVersion =
      ((s.disk.initEmptyDB mtree.initialVersion).1,none) := by
    refine Prod.ext rfl ?_
    simpa [DB.setInitialVersion,hro,h0,hset] using hnone
  have ht := hs.db db hdb
  have hv := hs.valid
  have hnil := ht.first h0
  obtain ⟨st,hat,hinfo,hfollows,-⟩ := ht.state
  have hfollows := hfollows (by rw [hidle]; rfl)
  have hst : st = h.start := by
    have hr := hat.2
    rw [hnil,take_nil] at hr
    exact (Except.ok.inj hr).symm
  subst hst
  have hversion := ht.start_version h0
  have hkeeps := hs.disk.reset hv hnil hversion hs.leftover hinit
  have hdisk := Disk.initEmptyDB_eq_ok hinit
  have hinfo' : mtree.lastCommitInfo = db.mtree.lastCommitInfo := by
    unfold MultiTree.setInitialVersion at hset
    split at hset
    · cases hset
    split at hset
    · cases hset
    split at hset <;> cases hset
    rfl
  have hmtree : mtree.version = 0 := by rw [version,hinfo']; exact h0
  have hposition : mtree.position = 0 := by rw [position,entriesAt,if_pos hmtree]
  -- Snapshots that are written or cloned have a version, and there is none yet.
  have hno : ∀ k t, h.Shows k t → t.version = 0 := fun k t ht => by
    rw [ht.version_eq hnil,hversion]
  have hrewriter : ∀ r ∈ db.rewriter, False := fun r hr => by
    obtain ⟨k,hk⟩ := (ht.rewriter r hr).cloned
    exact (ht.rewriter r hr).version (hno k _ hk)
  have hbase : s.disk.wal.base = 0 := by
    have hle := hs.disk.logged.le
    rw [hnil,IndexedLog.lastIndex] at hle
    simp only [length_nil] at hle
    omega
  refine ⟨h.reset mtree.initialVersion,⟨⟨fun k t hne hk => absurd (hno k t hk) hne,⟨[],by
    rw [hnil]; rfl⟩,rfl⟩,⟨hv.reset hversion,by change 0 < 2^63; decide,hkeeps,?_,?_,?_,hs.leftover⟩,
    ⟨_,rfl,?_⟩,fun _ k hk hle => absurd hk (Nat.not_lt.mpr hle)⟩,by rw [hnil]; rfl⟩
  · have hc := hs.flight
    rw [flight_some hdb,flight_of_held_nil (by rw [hidle]; rfl)] at hc
    rw [flight_ret]
    change (h.reset mtree.initialVersion).Carries (s.disk.initEmptyDB mtree.initialVersion).1.wal
      db.chanFlight
    rw [hdisk]
    have hentries : (h.reset mtree.initialVersion).entries = h.entries := hnil.symm
    exact ⟨by rw [History.Logs,hentries]; exact hc.logs,by rw [hentries]; exact hc.named,
      hc.consecutive,by rw [hentries]; exact hc.complete⟩
  · rintro x ⟨⟩
    exact {
      state := by
        refine ⟨(h.reset mtree.initialVersion).start,?_,?_,fun _ => ?_,False.elim⟩
        · change (h.reset mtree.initialVersion).At mtree.position _
          rw [hposition]
          exact ⟨Nat.zero_le _,rfl⟩
        · exact hinfo'.trans hinfo
        · exact (hfollows.setInitialVersion hv.proper hversion (hv.empty hversion) hfresh
            hset).congr rfl rfl
      sent := False.elim
      first := fun _ => rfl
      base := by
        simp only [ret,hdisk,hbase]
        exact Nat.zero_le _
      writable := fun _ => hro
      tmpDirs := by
        intro hro p hp
        simp only [ret,hdisk] at hp
        obtain ⟨hne,hstores⟩ := ht.tmpDirs hro p hp
        obtain ⟨t,-,hpv,hk⟩ := hstores.load hv
        exact absurd (hpv.symm.trans (hno _ t hk)) hne
      alive := ht.alive
      rewriter := fun r hr => (hrewriter r hr).elim
      received := False.elim
      waiting := by simp
      pruning := by simp
      error := rfl }
  · intro p hp
    have hpr := hs.pruner p hp
    refine ⟨?_,?_,?_⟩
    · rintro x ⟨⟩
      exact hposition
    · rintro x ⟨⟩ r hr
      exact (hrewriter r hr).elim
    · intro vs hstage v hmem
      obtain ⟨q,-,hcurrent,hstores⟩ := hs.disk.current
      obtain ⟨t,-,hqv,hk⟩ := hstores.load hv
      have hlt := hpr.removing vs hstage v hmem q.1 hcurrent
      rw [← hqv,hno _ t hk] at hlt
      exact absurd hlt (Nat.not_lt_zero v)
  · intro ev hev
    rw [mem_singleton.mp hev]
    trivial

variable {k : ℕ} {t : MultiTree} {d : Disk}

theorem names_oldTrees {dirs : List (ℕ × SnapshotDir)} (hv : h.Valid)
    (hdirs : ∀ p ∈ dirs, h.Stores p) (ht : h.Shows k t) :
    ∀ f ∈ Disk.oldTrees dirs t.version, f.1 ∈ t.names := by
  intro f hf
  unfold Disk.oldTrees at hf
  cases hl : dirs.lookup t.version with
  | none =>
    rw [hl] at hf
    cases hf
  | some dir =>
    rw [hl] at hf
    -- The directory holds the same version.
    obtain ⟨t₁,hload,hversion,ht₁⟩ := (hdirs _ (Disk.mem_of_lookup hl)).load hv
    have hk : entriesAt t.version h.start.initialVersion = k := by
      rw [← ht.position hv,position,ht.initialVersion hv]
    rw [hk] at ht₁
    have hbare := ht₁.state.unique ht.state
    have hmem := mem_names_load hload hf
    rwa [names,(bare_eq_iff.mp hbare).2.1] at hmem

theorem stores_writeTmp (hv : h.Valid) (htmp : ∀ p ∈ d.tmpDirs, p.1 ≠ 0 ∧ h.Stores p)
    (ht : h.Shows k t) (hne : t.version ≠ 0) (hfits : t.Fits) :
    ∀ p ∈ (d.writeTmp t).tmpDirs, p.1 ≠ 0 ∧ h.Stores p := by
  intro p hp
  rcases Disk.mem_putDir hp with rfl | hp
  · exact ⟨hne,ht.stores hv hfits (names_oldTrees hv (fun q hq => (htmp q hq).2) ht)⟩
  · exact htmp p hp

/-- A temporary directory that becomes a snapshot. -/
structure Renames (d d' : Disk) (h : History) (leftover : List (ℕ × SnapshotDir)) (v : ℕ) :
    Prop where
  keeps : d'.Keeps h leftover
  mem : ∃ dir, (v,dir) ∈ d'.snapshots ∧ h.Stores (v,dir)
  tmpDirs : ∀ p ∈ d'.tmpDirs, p.1 ≠ 0 ∧ h.Stores p
  current : d'.current = d.current
  currentTmp : d'.currentTmp = d.currentTmp
  wal : d'.wal = d.wal
  snapshots : ∀ p ∈ d.snapshots, p ∈ d'.snapshots

theorem renames_renameTmp {d' : Disk} (hd : d.Keeps h leftover)
    (htmp : ∀ p ∈ d.tmpDirs, p.1 ≠ 0 ∧ h.Stores p) {v : ℕ}
    (hbase : d.wal.base ≤ entriesAt v h.start.initialVersion) (hr : d.renameTmp v = some d') :
    Renames d d' h leftover v := by
  obtain ⟨dir,hl,hnew,rfl⟩ := Disk.renameTmp_eq_some.mp hr
  have hs := (htmp _ (Disk.mem_of_lookup hl)).2
  refine ⟨hd.put hnew hs hbase _,⟨dir,Disk.mem_putDir_iff.mpr (.inl rfl),hs⟩,?_,rfl,rfl,rfl,?_⟩
  · intro p hp
    exact htmp p (mem_of_mem_filter hp)
  · intro p hp
    exact Disk.mem_putDir_iff.mpr (.inr ⟨hp,fun heq => hnew (heq ▸ List.mem_map_of_mem hp)⟩)

theorem keeps_rewriteSnapshot (hd : d.Keeps h leftover) (hv : h.Valid)
    (htmp : ∀ p ∈ d.tmpDirs, p.1 ≠ 0 ∧ h.Stores p) (ht : h.Shows k t) (hne : t.version ≠ 0)
    (hfits : t.Fits) (hbase : d.wal.base ≤ t.position) :
    (d.rewriteSnapshot t).1.Keeps h leftover ∧
      (∀ p ∈ (d.rewriteSnapshot t).1.tmpDirs, p.1 ≠ 0 ∧ h.Stores p) ∧
      (d.rewriteSnapshot t).1.wal = d.wal ∧
      ((d.rewriteSnapshot t).1.current = d.current ∨
        (d.rewriteSnapshot t).1.current = some t.version) := by
  have hwrote : (d.writeTmp t).Keeps h leftover := hd.congr rfl rfl rfl
  have htmp₁ := stores_writeTmp hv htmp ht hne hfits
  unfold Disk.rewriteSnapshot
  simp only
  split
  · exact ⟨hwrote,htmp₁,rfl,.inl rfl⟩
  · rename_i d₁ hr
    have hren := renames_renameTmp hwrote htmp₁ (v := t.version) (by
      rw [← ht.initialVersion hv]
      exact hbase) hr
    obtain ⟨dir,hmem,hs⟩ := hren.mem
    unfold Disk.updateCurrentSymlink Disk.linkTmp
    by_cases hlink : d₁.currentTmp.isSome = true
    · rw [if_pos hlink]
      exact ⟨hren.keeps,hren.tmpDirs,hren.wal,.inl hren.current⟩
    · rw [if_neg hlink]
      exact ⟨hren.keeps.setCurrent hmem hs none,hren.tmpDirs,hren.wal,.inr rfl⟩

theorem shows_of_pending_nil (ht : db.Tracks h d) (hidle : db.phase = .idle)
    (hpending : db.pendingLog = {}) (hsane : db.mtree.Sane) :
    h.Shows db.mtree.position db.mtree := by
  obtain ⟨st,hat,hinfo,hfollows,-⟩ := ht.state
  have happlied := (hfollows (by rw [hidle]; rfl)).applied
  rw [hpending] at happlied
  obtain rfl : st = db.mtree.bare := (Prod.mk.inj happlied).1
  exact ⟨hat,hinfo,hsane.snapshot⟩

theorem goes_rewriteSnapshot (hok : s.Ok) (hs : s.Faithful h leftover) (hdb : s.db = some db)
    (hidle : db.phase = .idle) (hr : db.Regular s.disk .rewriteSnapshot)
    (hro : db.opts.readOnly = false) : s.GoesTo h leftover h
      ({ s with disk := (s.disk.rewriteSnapshot db.mtree).1 }.ret db .rewriteSnapshot
        (.ofError (s.disk.rewriteSnapshot db.mtree).2)) := by
  obtain ⟨hnone,hpending,hne,hfits⟩ := hr
  have ht := hs.db db hdb
  have hshows := shows_of_pending_nil ht hidle hpending (hok.db db hdb).base.sane
  obtain ⟨hkeeps,htmp,hwal,hcurrent⟩ := keeps_rewriteSnapshot hs.disk hs.valid (ht.tmpDirs hro) hshows
    hne hfits ht.base
  have hti := ht.idle (by rw [hidle]; rfl)
  refine goes_same ⟨hs.valid,hs.small,hkeeps,?_,?_,?_,hs.leftover⟩ rfl ?_
    (.of_not hdb (by rw [hidle]; exact id))
  · have hc := hs.flight
    rw [flight_some hdb,flight_of_held_nil (by rw [hidle]; rfl)] at hc
    rw [flight_ret]
    simp only [ret,hwal]
    exact hc
  · rintro x ⟨⟩
    exact {
      state := hti.state
      sent := hti.sent
      first := hti.first
      base := by simp only [ret,hwal]; exact hti.base
      writable := fun _ => hro
      tmpDirs := fun _ => htmp
      alive := hti.alive
      rewriter := fun r hr => by simp [hnone] at hr
      received := False.elim
      waiting := by simp
      pruning := by simp
      error := rfl }
  · intro p hp
    have hpr := hs.pruner p hp
    refine ⟨?_,?_,?_⟩
    · rintro x ⟨⟩
      exact hpr.latest db hdb
    · rintro x ⟨⟩ r hr
      simp [hnone] at hr
    · intro vs hstage v hmem c hc
      obtain ⟨q,hq,hqc,-⟩ := hs.disk.current
      have hlt := hpr.removing vs hstage v hmem q.1 hqc
      rcases hcurrent with heq | heq
      · simp only [ret,heq] at hc
        exact hpr.removing vs hstage v hmem c hc
      · -- The database is at the latest version, which is not before the old snapshot.
        simp only [ret,heq,Option.mem_some_iff] at hc
        subst hc
        have hat := hshows.state
        rw [hpr.latest db hdb] at hat
        exact hlt.trans_le (hs.disk.current_le_version hs.valid hat hne hqc)
  · intro ev hev
    rw [mem_singleton.mp hev]
    trivial

theorem tells_of_ne {c : Call} (hc : c ≠ .commit) (r : Reply) (view : View) :
    ∀ ev ∈ [Event.returned c r view], h.Tells ev := by
  intro ev hev
  rw [mem_singleton.mp hev]
  cases c <;> first | exact absurd rfl hc | trivial

theorem goes_ret (hs : s.Faithful h leftover) (hdb : s.db = some db) (hidle : db.phase = .idle)
    (ht : DB.Tracks { db' with phase := .idle } h s.disk) (hwalChan : db'.walChan = db.walChan)
    (hposition : db'.mtree.position = db.mtree.position)
    (hrewriter : ∀ r ∈ db'.rewriter, (∃ r₀ ∈ db.rewriter, r.cloned = r₀.cloned) ∨
      r.cloned.version = db.mtree.version) {c : Call} (hc : c ≠ .commit) (r : Reply) :
    s.GoesTo h leftover h (s.ret db' c r) := by
  refine goes_same (hs.setDb hdb ht ?_ hposition hrewriter _) rfl (tells_of_ne hc r _)
    (.of_not hdb (by rw [hidle]; exact id))
  rw [flight_of_held_nil rfl,flight_of_held_nil (by rw [hidle]; rfl)]
  exact chanFlight_congr hwalChan

theorem goes_finishClose (hs : s.Faithful h leftover) (hdb : s.db = some db)
    (hnot : ¬db.phase.Committing) (hflight : db.flight = []) (err : Option String) :
    s.GoesTo h leftover h (s.finishClose err) := by
  rw [← flight_some hdb] at hflight
  refine goes_same ⟨hs.valid,hs.small,hs.disk,?_,by rintro x ⟨⟩,?_,hs.leftover⟩ rfl
    (tells_of_ne (by simp) _ _) (.of_not hdb hnot)
  · have hc := hs.flight
    rw [hflight] at hc
    exact hc
  · intro p hp
    exact ⟨by rintro x ⟨⟩,by rintro x ⟨⟩,(hs.pruner p hp).removing⟩

theorem goes_starts (hok : s.Ok) (hs : s.Faithful h leftover) (hdb : s.db = some db)
    (hidle : db.phase = .idle) {c : Call} (hr : db.Regular s.disk c) (hstart : Starts s db c s') :
    ∃ h', s.GoesTo h leftover h' s' ∧ (c ≠ .commit → h'.entries.length = h.entries.length) := by
  have ht := hs.db db hdb
  have hti := ht.idle (by rw [hidle]; rfl)
  have hkept : ∀ r ∈ db.rewriter, (∃ r₀ ∈ db.rewriter, r.cloned = r₀.cloned) ∨
      r.cloned.version = db.mtree.version := fun r hr => .inl ⟨r,hr,rfl⟩
  have hheld : db.phase.held = [] := by rw [hidle]; rfl
  have hnot : ¬db.phase.Committing := by rw [hidle]; exact id
  cases hstart with
  | refused r hedit hcommit =>
    refine ⟨h,goes_ret hs hdb hidle hti rfl rfl hkept ?_ r,fun _ => rfl⟩
    rintro rfl
    have hro := hcommit rfl
    rw [hr.1] at hro
    cases hro
  | @edited _ db' e he =>
    have htouch := DB.touches_edit he
    obtain ⟨ho,hnone⟩ : db.Orderly c ∧ ∀ p ∈ db.edit c, p.2 = none := by
      cases c <;> first | exact hr | cases he
    obtain rfl : e = none := hnone _ he
    refine ⟨h,goes_ret hs hdb hidle (tracks_edit ht hs.valid hidle ho he) htouch.walChan
      htouch.mtree.position_eq ?_ ?_ _,fun _ => rfl⟩
    · rw [htouch.rewriter]
      exact hkept
    · rintro rfl
      cases he
  | initialised hro h0 hset =>
    obtain ⟨h',hg,hlength⟩ := goes_initialised hs hdb hidle hr hro h0 hset
    exact ⟨h',hg,fun _ => hlength⟩
  | saveFailed hro he =>
    obtain ⟨h',-,-,-,hg,-⟩ := goes_commit hok hs hdb hidle hr (.saveFailed hro he)
    exact ⟨h',hg,fun hne => absurd rfl hne⟩
  | sends hro hsave hbuf =>
    obtain ⟨h',-,-,-,hg,-⟩ := goes_commit hok hs hdb hidle hr (.sends hro hsave hbuf)
    exact ⟨h',hg,fun hne => absurd rfl hne⟩
  | writes hro hsave hbuf =>
    obtain ⟨h',-,-,-,hg,-⟩ := goes_commit hok hs hdb hidle hr (.writes hro hsave hbuf)
    exact ⟨h',hg,fun hne => absurd rfl hne⟩
  | rewrites hro => exact ⟨h,goes_rewriteSnapshot hok hs hdb hidle hr hro,fun _ => rfl⟩
  | clones hro hnone =>
    obtain ⟨hpending,hne⟩ := hr
    have hshows := shows_of_pending_nil ht hidle hpending (hok.db db hdb).base.sane
    have hnew : ∀ r ∈ some ({ cloned := db.mtree } : Rewriter), r.Tracks h s.disk := by
      rintro r ⟨⟩
      exact ⟨⟨_,hshows⟩,hne,ht.base,by simp,by simp,by simp,by simp⟩
    refine ⟨h,@goes_ret s h leftover db { db with rewriter := some { cloned := db.mtree } } hs hdb hidle
      (hti.setRewriter hnew False.elim hro) rfl rfl ?_ _ (by simp) _,fun _ => rfl⟩
    rintro r ⟨⟩
    exact .inr rfl
  | @closes _ chan phase hc hcall =>
    have hphase : phase = .waitQuit ∨ phase = .closeQuit ∨ ∃ err, phase = .closeRewrite err := by
      rcases hcall with ⟨-,rfl⟩ | ⟨-,rfl⟩ <;> simp
    have hheld' : phase.held = [] := by rcases hcall with ⟨-,rfl⟩ | ⟨-,rfl⟩ <;> rfl
    refine ⟨h,goes_same (hs.setDb hdb (ht.closing hheld hphase ?_) ?_ rfl hkept s.trace)
      (List.append_nil _).symm (by simp) (.of_not hdb hnot),fun _ => rfl⟩
    · rintro x ⟨⟩ hdead
      exact ⟨(ht.alive chan hc hdead).1,rfl⟩
    · rw [flight_of_held_nil hheld',flight_of_held_nil hheld,DB.chanFlight,DB.chanFlight,hc]
      rfl
  | awaits hc hsome =>
    refine ⟨h,goes_same (hs.setDb hdb (ht.closing hheld (.inr (.inr ⟨none,rfl⟩)) ht.alive) ?_ rfl
      hkept s.trace) (List.append_nil _).symm (by simp) (.of_not hdb hnot),fun _ => rfl⟩
    rw [flight_of_held_nil rfl,flight_of_held_nil hheld]
    exact chanFlight_congr rfl
  | ends hc hnone =>
    refine ⟨h,goes_finishClose hs hdb hnot ?_ none,fun _ => rfl⟩
    rw [flight_of_held_nil hheld,DB.chanFlight,hc]
    rfl

end System

end Memiavl
