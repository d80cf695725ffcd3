import Memiavl.FaithfulLoad

/-! `Load` of a closed database gives what `Commit` returned. -/
namespace Memiavl

open MultiTree List Transition

namespace Disk

variable {d : Disk} {T : ℕ}

theorem parsed_of_seekSnapshot (hsorted : d.versions.Pairwise (· < ·)) {v : ℕ}
    (hseek : d.seekSnapshot T = .ok v) : ∀ w ∈ d.versions, w < 2^31 := by
  obtain ⟨larger,rest,heq,hlarger,-,hv⟩ := seekIn_eq_ok.mp hseek
  have hdesc : d.versions.reverse.Pairwise (· > ·) := pairwise_reverse.mpr hsorted
  rw [heq] at hdesc
  intro w hw
  rw [← mem_reverse,heq] at hw
  rcases mem_append.mp hw with hw | hw
  · exact (hlarger w hw).2
  · rcases mem_cons.mp hw with rfl | hw
    · exact hv
    · exact (rel_of_pairwise_cons (pairwise_append.mp hdesc).2.1 hw).trans hv

end Disk

namespace System

variable {s : System} {h : History} {leftover : List (ℕ × SnapshotDir)} {db : DB} {v : ℕ} {view : View}

/-- The version that a `Commit` has returned, by its place in the history. -/
theorem exists_place (hv : h.Valid) (htells : h.Tells (.returned .commit (.version v) view)) :
    ∃ t, h.Shows (entriesAt v h.start.initialVersion) t ∧ t.version = v ∧ v ≠ 0 ∧ t.view = view ∧
      Committable v h.start.initialVersion := by
  obtain ⟨k,t,ht,hversion,hne,hview⟩ := htells
  have hk := ht.position hv
  rw [position,hversion,ht.initialVersion hv] at hk
  rw [hk]
  refine ⟨t,ht,hversion,hne,hview,?_⟩
  rw [← hversion,← ht.initialVersion hv]
  exact (ht.sane hv).committable

theorem load_of_keeps (hd : s.disk.Keeps h leftover) {o : Options} (ho : o.validate = none)
    (hover : o.loadForOverwriting = false) {t : MultiTree} (hne : t.version ≠ 0)
    (hl : s.disk.loadTarget o.targetVersion.toNat = .ok (v,t)) :
    DB.load o s.disk =
      (.ok { opts := o, mtree := t },if o.readOnly then s.disk else s.disk.removeTmpDirs) := by
  obtain ⟨p,hp,hcurrent,-⟩ := hd.current
  exact DB.load_of_loadTarget ho hover ⟨p.1,List.mem_map_of_mem hp,hcurrent⟩ hl hne

/-- The last version of a closed database is the largest one that a `Commit` has returned. -/
theorem latest_place (hs : s.Remembers h leftover) (hclosed : s.db = none)
    (htells : h.Tells (.returned .commit (.version v) view))
    (hlatest : ∀ w view', Event.returned .commit (.version w) view' ∈ s.trace → w ≤ v) :
    entriesAt v h.start.initialVersion = h.entries.length := by
  have hv := hs.faithful.valid
  obtain ⟨t,ht,hversion,hne,-,hcom⟩ := exists_place hv htells
  refine le_antisymm ht.state.1 ?_
  by_cases hnil : h.entries.length = 0
  · omega
  rcases hs.told h.entries.length (by omega) le_rfl with ⟨t',view',ht',hev⟩ | ⟨x,hx,-⟩
  · have hle := hlatest _ _ hev
    have hk := ht'.position hv
    have hcom' := (ht'.sane hv).committable
    rw [ht'.initialVersion hv] at hcom'
    rw [position,ht'.initialVersion hv] at hk
    rw [← hk]
    exact entriesAt_le hcom' hle
  · rw [hclosed] at hx
    cases hx

/-- A version that was committed is not before the initial version of a new database. -/
theorem initialVersion_le (h0 : h.start.version = 0) {t : MultiTree}
    (ht : h.Shows (entriesAt v h.start.initialVersion) t) (hversion : t.version = v) (hne : v ≠ 0)
    (hcom : Committable v h.start.initialVersion) : h.start.initialVersion.toNat ≤ v := by
  by_contra hlt
  have hzero : entriesAt v h.start.initialVersion = 0 := by
    unfold Committable at hcom
    unfold entriesAt walIndex
    split_ifs <;> omega
  rw [hzero] at ht
  have hbare : h.start = t.bare := Except.ok.inj ht.state.2
  rw [hbare,version_bare,hversion] at h0
  exact hne h0

/-- The place in the history of the version that `Load` gives for a target. -/
def place (h : History) (T : ℕ) : ℕ :=
  if T = 0 then h.entries.length
  else min (walIndex T h.start.initialVersion) h.entries.length

theorem shows_place (hs : s.Faithful h []) (hclosed : s.db = none) {T : ℕ}
    (hT : T = 0 ∨ h.start.initialVersion.toNat ≤ T ∧ (∃ e ∈ s.disk.versions, e ≤ T) ∧
      ∀ e ∈ s.disk.versions, e < 2^31) :
    ∃ w t, s.disk.loadTarget T = .ok (w,t) ∧ h.Shows (place h T) t := by
  have hlast := lastIndex_of_closed hs hclosed
  have hv := hs.valid
  unfold place
  by_cases h0 : T = 0
  · subst h0
    obtain ⟨c,t,hc,hl,ht⟩ := hs.disk.loadTarget_zero hv
    rw [hlast,max_eq_right (hs.disk.current_le hv hc)] at ht
    exact ⟨c,t,hl,ht⟩
  · obtain ⟨hiv,hge,hparsed⟩ := hT.resolve_left h0
    obtain ⟨w,t,hl,hw,hle,ht⟩ := hs.disk.loadTarget hv (by omega) hparsed hge (.inl hiv)
    -- The snapshot is neither after the target nor after the log.
    obtain ⟨p,hp,rfl⟩ := List.mem_map.mp hw
    obtain ⟨t₀,-,hversion,ht₀⟩ := ((hs.disk.stored p hp).resolve_right (by simp)).load hv
    have hcom := (ht₀.sane hv).committable
    rw [hversion,ht₀.initialVersion hv] at hcom
    have hbefore : entriesAt p.1 h.start.initialVersion ≤ walIndex T h.start.initialVersion := by
      rw [walIndex_of_pos (Nat.pos_of_ne_zero h0)]
      exact entriesAt_le hcom hle
    rw [hlast,max_eq_right (le_min hbefore ht₀.state.1)] at ht
    exact ⟨p.1,t,hl,by rwa [if_neg h0]⟩

theorem parsed_of_load (hs : s.Faithful h leftover) {o : Options} (ho : o.validate = none) {d : Disk}
    (hload : DB.load o s.disk = (.ok db,d)) (hT : o.targetVersion.toNat ≠ 0) :
    ∀ e ∈ s.disk.versions, e < 2^31 := by
  obtain ⟨d₁,w,t₁,hprep,hl,-⟩ := load_eq_ok hload
  rw [hs.disk.prepare_eq ho] at hprep
  obtain rfl := (Prod.mk.inj hprep).1
  obtain ⟨-,hstart,-⟩ := Disk.loadTarget_eq_ok.mp hl
  have hseek := (Disk.startSnapshot_eq_ok (Nat.pos_of_ne_zero hT)).mp hstart
  have hparsed := Disk.parsed_of_seekSnapshot (hs.disk.prepared o.readOnly).sorted hseek
  split at hparsed <;> exact hparsed

/-- A version that `Commit` has returned is what `Load` gives for it, or for no target or a larger
one if it is the last. -/
theorem load_committed (hs : s.Remembers h []) (h0 : h.start.version = 0) (hclosed : s.db = none)
    (hev : Event.returned .commit (.version v) view ∈ s.trace) {o : Options}
    (ho : o.validate = none) (hover : o.loadForOverwriting = false)
    (hT : o.targetVersion.toNat = 0 ∨ v ≤ o.targetVersion.toNat ∧
      (∃ e ∈ s.disk.versions, e ≤ o.targetVersion.toNat) ∧ ∀ e ∈ s.disk.versions, e < 2^31)
    (hlatest : o.targetVersion.toNat = v ∨
      ∀ w view', Event.returned .commit (.version w) view' ∈ s.trace → w ≤ v) :
    ∃ db, DB.load o s.disk = (.ok db,if o.readOnly then s.disk else s.disk.removeTmpDirs) ∧
      db.opts = o ∧ db.mtree.view = view ∧ db.mtree.version = v := by
  have hv := hs.faithful.valid
  have htells := hs.tells _ hev
  obtain ⟨t,ht,hversion,hne,hview,hcom⟩ := exists_place hv htells
  have hiv := initialVersion_le h0 ht hversion hne hcom
  have hplace : place h o.targetVersion.toNat = entriesAt v h.start.initialVersion := by
    rcases hlatest with heq | hlatest
    · rw [heq,place,if_neg hne,walIndex_of_pos (Nat.pos_of_ne_zero hne),min_eq_left ht.state.1]
    · have hlast := latest_place hs hclosed htells hlatest
      rw [place,hlast]
      split
      · rfl
      · rename_i hpos
        have hle := entriesAt_le hcom (hT.resolve_left hpos).1
        rw [hlast,← walIndex_of_pos (Nat.pos_of_ne_zero hpos)] at hle
        exact min_eq_right hle
  obtain ⟨w,t',hl,ht'⟩ := shows_place hs.faithful hclosed
    (hT.imp_right fun ⟨hle,hge,hparsed⟩ => ⟨hiv.trans hle,hge,hparsed⟩)
  rw [hplace] at ht'
  have hversion' : t'.version = v := by
    rw [← hversion]
    exact (bare_eq_iff.mp (ht'.state.unique ht.state)).2.2.2
  have hload := load_of_keeps hs.faithful.disk ho hover (by rw [hversion']; exact hne) hl
  exact ⟨_,hload,rfl,by rw [← hview]; exact ht'.view_eq ht,hversion'⟩

/-- In a run of regular calls, a version that `Commit` has returned is what `Load` gives for it, or
for no target or a larger one if it is the last: always without a target, and with a target exactly
if the name of every snapshot can be parsed. -/
theorem reload_iff (hrun : Run System.step (System.Regular []) {} s)
    (hclosed : s.db = none) (hev : Event.returned .commit (.version v) view ∈ s.trace) {o : Options}
    (ho : o.validate = none) (hover : o.loadForOverwriting = false)
    (hT : o.targetVersion.toNat = 0 ∨
      v ≤ o.targetVersion.toNat ∧ ∃ e ∈ s.disk.versions, e ≤ o.targetVersion.toNat)
    (hlatest : o.targetVersion.toNat = v ∨
      ∀ w view', Event.returned .commit (.version w) view' ∈ s.trace → w ≤ v) :
    (∃ db d, DB.load o s.disk = (.ok db,d) ∧ db.mtree.view = view) ↔
      o.targetVersion.toNat = 0 ∨ ∀ e ∈ s.disk.versions, e < 2^31 := by
  rcases exists_remembers hrun with rfl | ⟨h,hs,h0⟩
  · cases hev
  constructor
  · rintro ⟨db,d,hload,-⟩
    exact or_iff_not_imp_left.mpr fun hpos => parsed_of_load hs.faithful ho hload hpos
  · intro hparsed
    have hT' : o.targetVersion.toNat = 0 ∨ v ≤ o.targetVersion.toNat ∧
        (∃ e ∈ s.disk.versions, e ≤ o.targetVersion.toNat) ∧ ∀ e ∈ s.disk.versions, e < 2^31 := by
      rcases hparsed with h0 | hparsed
      · exact .inl h0
      · exact hT.imp_right fun ⟨hle,hge⟩ => ⟨hle,hge,hparsed⟩
    obtain ⟨db,hload,-,hview,-⟩ := load_committed hs h0 hclosed hev ho hover hT' hlatest
    exact ⟨db,_,hload,hview⟩

/-- What a `Commit` has returned as version `v`. -/
def committedView? (v : ℕ) : Event → Option View
  | .returned .commit (.version w) view => if w = v then some view else none
  | _ => none

theorem mem_trace_of_view {trace : List Event} (hview : view ∈ trace.filterMap (committedView? v)) :
    Event.returned .commit (.version v) view ∈ trace := by
  obtain ⟨ev,hev,hlast⟩ := mem_filterMap.mp hview
  unfold committedView? at hlast
  split at hlast
  · rw [Option.ite_none_right_eq_some] at hlast
    obtain ⟨rfl,hlast⟩ := hlast
    cases hlast
    exact hev
  · cases hlast

theorem error_of_toOption {α : Type} {x : Except String α} (h : x.toOption = none) :
    ∃ e, x = .error e := by
  cases x with
  | error e => exact ⟨e,rfl⟩
  | ok a => cases h

/-- A snapshot of the first version, of a database that starts at version 2^31. -/
def largeVersionActs : List Act :=
  [.load { createIfMissing := true, initialVersion := 2147483648, asyncCommitBuffer := -1 }] ++
    commitActs ++ [.call .rewriteSnapshot,.call .close]

/-- The name of such a snapshot cannot be parsed, so its version cannot be loaded. -/
theorem reload_large_version_fails : ∃ (s : System) (o : Options) (view : View) (e : String)
    (d : Disk), Run System.step (System.Regular []) {} s ∧ s.db = none ∧
      Event.returned .commit (.version (2^31)) view ∈ s.trace ∧ o.targetVersion.toNat = 2^31 ∧
      s.disk.versions = [0,2^31] ∧ DB.load o s.disk = (.error e,d) := by
  have hex : (exec System.step (System.Regular []) largeVersionActs {}).any (fun s =>
      s.db = none ∧ s.trace.filterMap (committedView? (2^31)) ≠ [] ∧
        s.disk.versions = [0,2^31] ∧
        (DB.load { targetVersion := 2147483648 } s.disk).1.toOption = none) = true := by
    decide +kernel
  obtain ⟨s,hrun,hex⟩ := Run.exists_of_exec hex
  obtain ⟨hclosed,hview,hversions,hload⟩ := of_decide_eq_true hex
  obtain ⟨view,hview⟩ := exists_mem_of_ne_nil _ hview
  obtain ⟨e,he⟩ := error_of_toOption hload
  exact ⟨s,_,view,e,_,hrun,hclosed,mem_trace_of_view hview,rfl,hversions,Prod.ext he rfl⟩

/-- Loaded at version 10, the database that has committed versions 10 and 11 shows what the first
`Commit` returned. -/
theorem reload_initial_ten : ∃ (s : System) (o : Options) (view : View) (db : DB) (d : Disk),
    Run System.step (System.Regular []) {} s ∧ s.db = none ∧
      Event.returned .commit (.version 10) view ∈ s.trace ∧ o.targetVersion.toNat = 10 ∧
      DB.load o s.disk = (.ok db,d) ∧ db.mtree.view = view := by
  have hex : (exec System.step (System.Regular []) initialTenActs {}).any (fun s =>
      s.db = none ∧ s.trace.filterMap (committedView? 10) ≠ [] ∧ s.disk.versions = [0]) = true := by
    decide +kernel
  obtain ⟨s,hrun,hex⟩ := Run.exists_of_exec hex
  obtain ⟨hclosed,hview,hversions⟩ := of_decide_eq_true hex
  obtain ⟨view,hview⟩ := exists_mem_of_ne_nil _ hview
  have hev := mem_trace_of_view hview
  obtain ⟨db,d,hload,hdb⟩ := (reload_iff hrun hclosed hev (o := { targetVersion := 10 }) rfl rfl
    (.inr ⟨le_rfl,0,by simp [hversions],by decide⟩) (.inl rfl)).mpr (.inr (by simp [hversions]))
  exact ⟨s,_,view,db,d,hrun,hclosed,hev,rfl,hload,hdb⟩

end System

end Memiavl
