import Memiavl.WalEffect

/-! The order of the log. A session leaves in it the entries that were there when the
database was opened, followed by the committed entries with larger indices. -/
namespace Memiavl

open List Transition

/-- The indices of a list of entries are consecutive from `first` on. -/
def Consecutive (first : ℕ) (es : List WalEntry) : Prop :=
  es.map WalEntry.index = List.range' first es.length

namespace Consecutive

variable {first : ℕ} {es es' : List WalEntry}

section
variable (h : Consecutive first es)
include h

theorem append (h' : Consecutive (first+es.length) es') : Consecutive first (es ++ es') := by
  rw [Consecutive,map_append,length_append,h,h',range'_append_1]

theorem bounds {e : WalEntry} (he : e ∈ es) : first ≤ e.index ∧ e.index < first+es.length := by
  have : e.index ∈ es.map WalEntry.index := List.mem_map_of_mem he
  rwa [h,mem_range'_1] at this

theorem index_getLast {e : WalEntry} (he : es.getLast? = some e) : e.index+1 = first+es.length := by
  have hl := congrArg List.getLast? h
  rw [getLast?_map,he] at hl
  cases hn : es.length with
  | zero =>
    rw [length_eq_zero_iff.mp hn] at he
    cases he
  | succ n =>
    rw [hn,range'_concat,getLast?_concat] at hl
    simp only [Option.map_some,Option.some.injEq] at hl
    omega

/-- Later entries of a list with growing indices are beyond a consecutive part. -/
theorem lt_of_append (hsorted : ((es ++ es').map WalEntry.index).Pairwise (· < ·)) (hne : es ≠ [])
    {e : WalEntry} (he : e ∈ es') : first+es.length ≤ e.index := by
  rw [map_append,pairwise_append] at hsorted
  have hlast := h.index_getLast (getLast?_eq_some_getLast hne)
  have := hsorted.2.2 _ (List.mem_map_of_mem (getLast_mem hne)) _ (List.mem_map_of_mem he)
  omega

end

end Consecutive

namespace DB

variable {db : DB} {last : ℕ}

theorem Ok.flight_sorted (h : db.Ok last) :
    (db.flight.map WalEntry.index).Pairwise (· < ·) := by
  have hp := h.phase
  rw [DB.PhaseOk] at hp
  have hheld : ∀ e ∈ db.phase.held, ∀ e' ∈ db.chanFlight, e'.index < e.index := by
    intro e he
    cases hphase : db.phase <;> rw [hphase] at hp he <;> simp only [Phase.held,
      not_mem_nil,mem_singleton] at he
    case sending => exact he ▸ hp.2.1.last
    case writing => exact he ▸ hp.2.1.last
  have hone : (db.phase.held.map WalEntry.index).Pairwise (· < ·) := by
    cases db.phase <;> simp [Phase.held]
  rw [flight,map_append,pairwise_append]
  refine ⟨h.base.sorted,hone,?_⟩
  simp only [List.mem_map,forall_exists_index,and_imp,forall_apply_eq_imp_iff₂]
  exact fun e' he' e he => hheld e he e' he'

theorem Ok.flight_bound (h : db.Ok last) : ∀ e ∈ db.flight, e.index ≤ db.mtree.position := by
  have hp := h.phase
  rw [DB.PhaseOk] at hp
  simp only [flight,mem_append]
  rintro e (he | he)
  · exact h.base.bound e he
  · cases hphase : db.phase <;> rw [hphase] at hp he <;> simp only [Phase.held,
      not_mem_nil,mem_singleton] at he
    case sending => exact he ▸ hp.2.1.index.le
    case writing => exact he ▸ hp.2.1.index.le

end DB

namespace System

variable {s s' : System}

theorem Ok.flight_sorted (hs : s.Ok) : (s.flight.map WalEntry.index).Pairwise (· < ·) := by
  cases hdb : s.db with
  | none => simp [flight,hdb]
  | some db =>
    rw [flight_some hdb]
    exact (hs.db db hdb).flight_sorted

/-- The entries of a list that the log `old` does not have. -/
def beyond (old : IndexedLog WALEntry) (es : List WalEntry) : List WalEntry :=
  es.filter (old.lastIndex < ·.index)

theorem beyond_append (old : IndexedLog WALEntry) (es es' : List WalEntry) :
    beyond old (es ++ es') = beyond old es ++ beyond old es' :=
  filter_append ..

/-- A session opened with the log `old` has committed `es` since then. -/
structure InOrder (old : IndexedLog WALEntry) (es : List WalEntry) (s : System) : Prop where
  log : ∃ written, beyond old es = written ++ beyond old s.flight ∧
    Consecutive (old.lastIndex+1) written ∧
    s.disk.wal.TruncationOf (old.append (written.map WalEntry.data))
  /-- The log has an entry that is still on its way only if it had it from the start. -/
  seen : ∀ e ∈ s.flight, e.index ≤ s.disk.wal.lastIndex → e.index ≤ old.lastIndex
  sorted : (es.map WalEntry.index).Pairwise (· < ·)
  bound : ∀ db ∈ s.db, (∀ e ∈ es, e.index ≤ db.mtree.position) ∧
    s.disk.wal.lastIndex ≤ max old.lastIndex db.mtree.position

namespace InOrder

variable {old : IndexedLog WALEntry} {es : List WalEntry}

section
variable (h : InOrder old es s)
include h

theorem le_lastIndex : old.lastIndex ≤ s.disk.wal.lastIndex := by
  obtain ⟨written,-,-,ht⟩ := h.log
  rw [ht.lastIndex_eq,IndexedLog.lastIndex_append]
  omega

theorem bound_of_continues (hc : Continues s s')
    (hlast : s'.disk.wal.lastIndex = s.disk.wal.lastIndex) : ∀ db ∈ s'.db,
    (∀ e ∈ es, e.index ≤ db.mtree.position) ∧
      s'.disk.wal.lastIndex ≤ max old.lastIndex db.mtree.position := by
  intro db' hdb'
  obtain ⟨db,hdb,-,hpos⟩ := hc db' hdb'
  obtain ⟨hes,hmax⟩ := h.bound db hdb
  refine ⟨fun e he => (hes e he).trans hpos,?_⟩
  rw [hlast]
  omega

theorem same (hc : Continues s s') (hwal : s'.disk.wal.TruncationOf s.disk.wal)
    (hflight : s'.flight = s.flight) : InOrder old es s' := by
  obtain ⟨written,hes,hw,ht⟩ := h.log
  refine ⟨⟨written,by rw [hflight,hes],hw,hwal.trans ht⟩,?_,h.sorted,
    h.bound_of_continues hc hwal.lastIndex_eq⟩
  rw [hflight,hwal.lastIndex_eq]
  exact h.seen

theorem commit {db db' : DB} {e : WalEntry} (hdb : s.db = some db) (hdb' : s'.db = some db')
    (he : e.index = db.mtree.position+1) (hpos : db'.mtree.position = db.mtree.position+1)
    (hwal : s'.disk.wal = s.disk.wal) (hflight : s'.flight = s.flight ++ [e]) :
    InOrder old (es ++ [e]) s' := by
  obtain ⟨written,hes,hw,ht⟩ := h.log
  obtain ⟨hle,hmax⟩ := h.bound db hdb
  refine ⟨⟨written,?_,hw,by rwa [hwal]⟩,?_,?_,?_⟩
  · rw [hflight,beyond_append,beyond_append,hes,append_assoc]
  · rw [hflight,hwal]
    simp only [mem_append,mem_singleton]
    rintro e' (he' | rfl)
    · exact h.seen e' he'
    · -- The log has no entry beyond the position before, except old ones.
      omega
  · rw [map_append,pairwise_append]
    refine ⟨h.sorted,by simp,?_⟩
    simp only [List.mem_map,map_cons,map_nil,mem_singleton,forall_exists_index,
      and_imp,forall_apply_eq_imp_iff₂,forall_eq]
    intro e' he'
    have := hle e' he'
    omega
  · rw [hdb',hwal]
    rintro x ⟨⟩
    refine ⟨?_,by omega⟩
    simp only [mem_append,mem_singleton]
    rintro e' (he' | rfl)
    · have := hle e' he'
      omega
    · omega

theorem skipped {es₁ rest : List WalEntry} (hc : Continues s s') (hflight : s.flight = es₁ ++ rest)
    (hflight' : s'.flight = es₁.filter (s.disk.wal.lastIndex < ·.index) ++ rest)
    (hwal : s'.disk.wal = s.disk.wal) : InOrder old es s' := by
  obtain ⟨written,hes,hw,ht⟩ := h.log
  have hle := h.le_lastIndex
  refine ⟨⟨written,?_,hw,by rwa [hwal]⟩,?_,h.sorted,h.bound_of_continues hc (by rw [hwal])⟩
  · -- What was skipped is in the log, so it was there from the start.
    rw [hes,hflight,hflight',beyond_append,beyond_append]
    congr 2
    rw [beyond,beyond,List.filter_filter]
    refine List.filter_congr fun e he => ?_
    have := h.seen e (by rw [hflight]; exact mem_append_left _ he)
    simp only [← Bool.decide_and,decide_eq_decide]
    omega
  · rw [hflight',hwal]
    simp only [mem_append,mem_filter]
    rintro e (⟨he,-⟩ | he)
    · exact h.seen e (by rw [hflight]; exact mem_append_left _ he)
    · exact h.seen e (by rw [hflight]; exact mem_append_right _ he)

end

theorem wrote {es₁ rest : List WalEntry} (hs : s.Ok) (h : InOrder old es s) (hc : Continues s s')
    (hflight : s.flight = es₁ ++ rest) (hi : Consecutive (s.disk.wal.lastIndex+1) es₁)
    (hwal : s'.disk.wal = s.disk.wal.append (es₁.map WalEntry.data)) (hflight' : s'.flight = rest) :
    InOrder old es s' := by
  obtain ⟨written,hes,hw,ht⟩ := h.log
  have hle := h.le_lastIndex
  have hlast : s.disk.wal.lastIndex = old.lastIndex+written.length := by
    rw [ht.lastIndex_eq,IndexedLog.lastIndex_append,length_map]
  have hlast' : s'.disk.wal.lastIndex = s.disk.wal.lastIndex+es₁.length := by
    rw [hwal,IndexedLog.lastIndex_append,length_map]
  have hnew : beyond old es₁ = es₁ := by
    rw [beyond,filter_eq_self]
    intro e he
    have := hi.bounds he
    simp only [decide_eq_true_eq]
    omega
  have hsorted := hs.flight_sorted
  rw [hflight] at hsorted
  refine ⟨⟨written ++ es₁,?_,hw.append ?_,?_⟩,?_,h.sorted,?_⟩
  · rw [hes,hflight,hflight',beyond_append,hnew,append_assoc]
  · rw [show old.lastIndex+1+written.length = s.disk.wal.lastIndex+1 by omega]
    exact hi
  · rw [hwal,map_append,← IndexedLog.append_append]
    exact ht.append _
  · rw [hflight',hlast']
    intro e he
    by_cases hne : es₁ = []
    · subst hne
      exact h.seen e (by rw [hflight]; exact he)
    · have := hi.lt_of_append hsorted hne he
      omega
  · intro db' hdb'
    obtain ⟨db,hdb,-,hpos⟩ := hc db' hdb'
    obtain ⟨hes',hmax⟩ := h.bound db hdb
    refine ⟨fun e he => (hes' e he).trans hpos,?_⟩
    rw [hlast']
    by_cases hne : es₁ = []
    · simp only [hne,length_nil]
      omega
    · have hin : es₁.getLast hne ∈ db.flight := by
        rw [← flight_some hdb,hflight]
        exact mem_append_left _ (getLast_mem hne)
      have := (hs.db db hdb).flight_bound _ hin
      have := hi.index_getLast (getLast?_eq_some_getLast hne)
      omega

theorem step (hs : s.Ok) (h : InOrder old es s) {a : Act} (ha : a.InSession)
    (hstep : s.step a = some s') (hf : ¬s'.WriteFailed) :
    ∃ es', s'.committed = s.committed ++ es' ∧ InOrder old (es ++ es') s' := by
  obtain ⟨heffect,hc⟩ := effect_step hs ha hstep
  cases heffect with
  | same hwal hflight hcom => exact ⟨[],by simp [hcom],by simpa using h.same hc hwal hflight⟩
  | commit db db' e hdb hdb' he hpos hwal hflight hcom =>
    exact ⟨[e],hcom,h.commit hdb hdb' he hpos hwal hflight⟩
  | skipped es₁ rest hflight hflight' hwal hcom =>
    exact ⟨[],by simp [hcom],by simpa using h.skipped hc hflight hflight' hwal⟩
  | wrote es₁ rest hflight hi hwal hflight' hcom =>
    exact ⟨[],by simp [hcom],by simpa using h.wrote hs hc hflight hi hwal hflight'⟩
  | failed xs hfailed => exact absurd hfailed hf

/-- Once nothing is on its way, the log ends with the last commit, if it did not end later from
the start. -/
theorem lastIndex_of_drained (h : InOrder old es s) (hflight : s.flight = []) {e : WalEntry}
    (he : es.getLast? = some e) : s.disk.wal.lastIndex = max old.lastIndex e.index := by
  obtain ⟨written,hes,hw,ht⟩ := h.log
  obtain ⟨es,rfl⟩ := getLast?_eq_some_iff.mp he
  rw [ht.lastIndex_eq,IndexedLog.lastIndex_append,length_map]
  rw [hflight,beyond_append,beyond,beyond,beyond,filter_nil,List.append_nil] at hes
  by_cases hlt : old.lastIndex < e.index
  · rw [filter_singleton,decide_eq_true hlt,cond_true] at hes
    have hlast : written.getLast? = some e := by rw [← hes,getLast?_concat]
    have := hw.index_getLast hlast
    omega
  · -- Indices grow, so no commit went beyond the log.
    have hnil : written = [] := by
      rw [← hes,← filter_append,filter_eq_nil_iff]
      intro e' he'
      have hsorted := h.sorted
      rw [map_append,pairwise_append] at hsorted
      simp only [mem_append,mem_singleton] at he'
      rcases he' with he' | rfl
      · have := hsorted.2.2 _ (List.mem_map_of_mem he') e.index (by simp)
        simp only [decide_eq_true_eq]
        omega
      · simpa using hlt
    rw [hnil,length_nil]
    omega

end InOrder

/-- The actions of a session in which no write has failed. -/
def Unfailed (s : System) (a : Act) : Prop := a.InSession ∧ ¬s.WriteFailed

instance (s : System) (a : Act) : Decidable (s.Unfailed a) :=
  inferInstanceAs (Decidable (_ ∧ _))

theorem flight_load {o : Options} (hload : s.step (.load o) = some s') : s'.flight = [] := by
  simp only [System.step] at hload
  split at hload
  · rename_i hdb _
    split at hload
    · cases hload
      simp [flight,hdb]
    · rename_i he
      cases hload
      obtain ⟨-,-,mtree,-,-,-,ho⟩ := load_eq_ok he
      obtain ⟨htouch,hphase⟩ := touches_openWith ho
      rw [flight_some rfl,flight_of_held_nil (by rw [hphase]; rfl),htouch.chanFlight_eq]
      rfl
  · cases hload

theorem inOrder_run {s₀ s₁ s : System} {o : Options} (h₀ : s₀.Reachable)
    (hload : s₀.step (.load o) = some s₁) (hrun : Run System.step Unfailed s₁ s)
    (hs : ¬s.WriteFailed) :
    ∃ es, s.committed = s₁.committed ++ es ∧ InOrder s₁.disk.wal es s := by
  have hnil := flight_load hload
  have hstart : InOrder s₁.disk.wal [] s₁ :=
    ⟨⟨[],by simp [beyond,hnil],rfl,by simpa using .refl _⟩,by simp [hnil],by simp,by simp⟩
  let I (t : System) : Prop := t.Ok ∧ (t.WriteFailed ∨
    ∃ es, t.committed = s₁.committed ++ es ∧ InOrder s₁.disk.wal es t)
  have hinv : I s := by
    refine hrun.invariant (I := I) ⟨h₀.ok.step hload,.inr ⟨[],by simp,hstart⟩⟩ ?_
    rintro t a t' ⟨hok,ht⟩ ⟨ha,hf⟩ hstep
    refine ⟨hok.step hstep,or_iff_not_imp_left.mpr fun hf' => ?_⟩
    obtain ⟨es,hes,ho⟩ := ht.resolve_left hf
    obtain ⟨es',hes',ho'⟩ := ho.step hok ha hstep hf'
    exact ⟨es ++ es',by rw [hes',hes,append_assoc],ho'⟩
  exact hinv.2.resolve_left hs

/-- In a session without a failed write the log is the one it was opened with, perhaps cut at
the front, followed by the commits that went beyond it, in their order and without a gap; the
rest of them is on its way. -/
theorem wal_order {s₀ s₁ s : System} {o : Options} (h₀ : s₀.Reachable)
    (hload : s₀.step (.load o) = some s₁) (hrun : Run System.step Unfailed s₁ s)
    (hs : ¬s.WriteFailed) :
    ∃ es written, s.committed = s₁.committed ++ es ∧
      beyond s₁.disk.wal es = written ++ beyond s₁.disk.wal s.flight ∧
      Consecutive (s₁.disk.wal.lastIndex+1) written ∧
      s.disk.wal.TruncationOf (s₁.disk.wal.append (written.map WalEntry.data)) ∧
      (s.flight = [] → ∀ e ∈ es.getLast?,
        s.disk.wal.lastIndex = max s₁.disk.wal.lastIndex e.index) := by
  obtain ⟨es,hes,h⟩ := inOrder_run h₀ hload hrun hs
  obtain ⟨written,hb,hw,ht⟩ := h.log
  exact ⟨es,written,hes,hb,hw,ht,fun hflight e he => h.lastIndex_of_drained hflight he⟩

def commitActs : List Act := [.call .commit,.proceed none,.proceed none,.proceed none]

/-- The goroutine of the log with one entry, from its receive to the next. -/
def writeActs : List Act := [.write none,.write none,.write none,.write none]

/-- The session of a database opened at an older version ends with the entries of later
versions still in the log. -/
theorem log_ends_beyond_last_commit : ∃ (s₀ s₁ s : System) (o : Options) (db : DB),
    s₀.Reachable ∧ s₀.step (.load o) = some s₁ ∧ 0 ≤ o.asyncCommitBuffer ∧
      Run System.step Unfailed s₁ s ∧ ¬s.WriteFailed ∧ s.flight = [] ∧
      s.db = some db ∧ s₁.committed.length < s.committed.length ∧
      walIndex db.mtree.version db.mtree.initialVersion < s.disk.wal.lastIndex := by
  have hex : (exec System.step (fun _ _ => True)
      ([.load { createIfMissing := true, asyncCommitBuffer := -1 }] ++ commitActs ++ commitActs ++
        commitActs ++ [.call .close]) {}).any (fun s₀ =>
      (s₀.step (.load { targetVersion := 1 })).any fun s₁ =>
        (exec System.step Unfailed (commitActs ++ writeActs) s₁).any fun s =>
          s.flight = [] ∧ ¬s.WriteFailed ∧ s₁.committed.length < s.committed.length ∧
            ∃ db ∈ s.db, walIndex db.mtree.version db.mtree.initialVersion <
              s.disk.wal.lastIndex) = true := by
    decide +kernel
  obtain ⟨s₀,h₀,hex⟩ := Run.exists_of_exec hex
  obtain ⟨s₁,hload,hex⟩ := (Option.any_eq_true ..).mp hex
  obtain ⟨s,hrun,hex⟩ := Run.exists_of_exec hex
  obtain ⟨hflight,hfail,hlen,db,hdb,hlt⟩ := of_decide_eq_true hex
  exact ⟨s₀,s₁,s,{ targetVersion := 1 },db,h₀,hload,by decide,hrun,hfail,hflight,hdb,hlen,hlt⟩

/-- A new database with two commits, of which the second is on its way. -/
theorem wal_order_two_commits : ∃ (s₁ s : System) (es written : List WalEntry),
    s.committed = s₁.committed ++ es ∧ es.length = 2 ∧
      beyond s₁.disk.wal es = written ++ beyond s₁.disk.wal s.flight ∧
      Consecutive (s₁.disk.wal.lastIndex+1) written ∧
      s.disk.wal.TruncationOf (s₁.disk.wal.append (written.map WalEntry.data)) := by
  have hex : (System.step {} (.load { createIfMissing := true })).any (fun s₁ =>
      (exec System.step Unfailed (commitActs ++ writeActs ++ commitActs) s₁).any fun s =>
        s.committed.length = s₁.committed.length+2 ∧ ¬s.WriteFailed) = true := by
    decide +kernel
  obtain ⟨s₁,hload,hex⟩ := (Option.any_eq_true ..).mp hex
  obtain ⟨s,hrun,hex⟩ := Run.exists_of_exec hex
  obtain ⟨hlen,hfail⟩ := of_decide_eq_true hex
  obtain ⟨es,written,hes,hb,hw,ht,-⟩ := wal_order .refl hload hrun hfail
  refine ⟨s₁,s,es,written,hes,?_,hb,hw,ht⟩
  rw [hes,length_append] at hlen
  omega

end System

end Memiavl
