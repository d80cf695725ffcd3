import Memiavl.Reload
import Memiavl.Switch
import Memiavl.Upgrades

/-! Upgrades and change sets that fail: which of them leave the trees, the index of names and the
pending entry as they were, and what a run with such calls logs. -/
namespace Memiavl

open MultiTree List Transition

namespace MultiTree

/-- With these names of stores, the upgrades look a store up when there is none any more. -/
def cancels : Multiset Bytes → List TreeNameUpgrade → Bool
  | _,[] => false
  | names,u::us =>
    match u.lookedUp with
    | none => cancels (u.name ::ₘ names) us
    | some name => names = 0 || (name ∈ names && cancels (u.given.toList + names.erase name) us)

variable {next : UInt32} {trees trees' : List NamedTree} {us : List TreeNameUpgrade} {t : MultiTree}

theorem lookedUp_of_error {u : TreeNameUpgrade} {e : String}
    (h : applyUpgrade next trees u = .error e) :
    ∃ name, u.lookedUp = some name ∧ name ∉ trees.map NamedTree.name := by
  unfold applyUpgrade at h
  split_ifs at h with hdelete hfrom
  · split at h <;> cases h
    rename_i hnone
    refine ⟨u.name,by simp [TreeNameUpgrade.lookedUp,hdelete],?_⟩
    simpa using hnone
  · split at h <;> cases h
    rename_i hnone
    refine ⟨u.renameFrom,by simp [TreeNameUpgrade.lookedUp,hdelete,hfrom],?_⟩
    simpa using hnone

theorem upgradeTrees_cancels {err : Option String} (h : upgradeTrees next trees us = (trees',err)) :
    err ≠ none ∧ trees' = [] ↔ cancels (trees.map NamedTree.name) us := by
  induction us generalizing trees with
  | nil =>
    cases h
    simp [cancels]
  | cons u us ih =>
    rw [upgradeTrees] at h
    split at h
    · rename_i e he
      cases h
      obtain ⟨name,hl,hnot⟩ := lookedUp_of_error he
      simp [cancels,hl,hnot]
    · rename_i trees₁ hok
      rw [ih h,cancels]
      rcases applyUpgrade_ok hok with ⟨hl,hperm⟩ | ⟨e,rest,hl,-,hperm,hperm'⟩
      · have hnames : (trees₁.map NamedTree.name : Multiset Bytes) =
            u.name ::ₘ (trees.map NamedTree.name : Multiset Bytes) :=
          Multiset.coe_eq_coe.mpr (hperm.map NamedTree.name)
        rw [hl,hnames]
      · have hnames : (trees.map NamedTree.name : Multiset Bytes) =
            e.name ::ₘ (rest.map NamedTree.name : Multiset Bytes) :=
          Multiset.coe_eq_coe.mpr (hperm.map NamedTree.name)
        have hnames' : (trees₁.map NamedTree.name : Multiset Bytes) =
            (u.given.toList : Multiset Bytes) + (rest.map NamedTree.name : Multiset Bytes) := by
          refine Multiset.coe_eq_coe.mpr ?_
          have hmap := hperm'.map NamedTree.name
          cases hgiven : u.given <;> simpa [hgiven] using hmap
        rw [hl,hnames,hnames']
        simp

theorem Indexed.applyUpgrades_same_iff (ht : t.Indexed) (he : (t.applyUpgrades us).2 ≠ none) :
    (t.applyUpgrades us).1.trees = t.trees ∧
        (t.applyUpgrades us).1.treesByName = t.treesByName ↔
      t.trees = [] ∧ cancels 0 us := by
  have hus : us ≠ [] := by
    rintro rfl
    exact he rfl
  have hindex : t.treesByName = [] ↔ t.trees = [] := by
    rw [ht.index,indexOf]
    simp
  rcases hu : upgradeTrees (UInt32.ofNat (nextVersion t.version t.initialVersion)) t.trees us
    with ⟨trees,_ | e⟩
  · have hcancel := upgradeTrees_cancels hu
    constructor
    · rintro ⟨htrees,-⟩
      -- If the trees were as before, their names would be distinct and the call would succeed.
      have hsort : sortByName trees = t.trees := by
        simpa only [MultiTree.applyUpgrades,if_neg hus,hu] using htrees
      have hperm : t.trees.Perm trees := by
        rw [← hsort]
        exact perm_insertionSort ..
      have hnodup := (hperm.map NamedTree.name).nodup_iff.mp ht.strict.nodup
      rw [(applyUpgrades_eq_ok hus).mpr ⟨trees,hu,hnodup,rfl⟩] at he
      exact absurd rfl he
    · rintro ⟨h0,hc⟩
      rw [h0] at hcancel
      exact absurd rfl (hcancel.mpr hc).1
  · have hcancel := upgradeTrees_cancels hu
    have hfail : t.applyUpgrades us = ({ t with trees, treesByName := [] },some e) := by
      simp only [MultiTree.applyUpgrades,if_neg hus,hu]
    rw [hfail]
    constructor
    · rintro ⟨htrees,hnil⟩
      have h0 := hindex.mp hnil.symm
      rw [h0] at hcancel
      exact ⟨h0,hcancel.mp ⟨by simp,htrees.trans h0⟩⟩
    · rintro ⟨h0,hc⟩
      rw [h0] at hcancel
      exact ⟨(hcancel.mpr hc).2.trans h0.symm,(hindex.mpr h0).symm⟩

end MultiTree

namespace DB

variable {db db' : DB} {c : Call} {e : String}

/-- The trees, the index of names and the pending entry are the same. -/
structure Untouched (db db' : DB) : Prop where
  trees : db'.mtree.trees = db.mtree.trees
  treesByName : db'.mtree.treesByName = db.mtree.treesByName
  pendingLog : db'.pendingLog = db.pendingLog

/-- Calls that fail without a trace: those on a read-only database, and upgrades of a database
without stores that look one up when there is none any more. -/
def Refuses (db : DB) : Call → Prop
  | .applyUpgrades us => db.opts.readOnly = true ∨ db.mtree.trees = [] ∧ MultiTree.cancels 0 us
  | _ => db.opts.readOnly = true

instance (db : DB) (c : Call) : Decidable (db.Refuses c) := by
  induction c using Call.casesOn <;> dsimp only [Refuses] <;> infer_instance

def weight (pending : List NamedChangeSet) : ℕ := (pending.map fun c => c.changeset.length+1).sum

theorem weight_modify {pending : List NamedChangeSet} {i : ℕ} (hi : i < pending.length)
    (cs : ChangeSet) :
    weight (pending.modify i fun c => { c with changeset := c.changeset ++ cs }) =
      weight pending+cs.length := by
  induction pending generalizing i with
  | nil => cases hi
  | cons c pending ih =>
    cases i with
    | zero =>
      simp only [weight,modify_zero_cons,map_cons,sum_cons,length_append]
      omega
    | succ i =>
      have hweight := ih (Nat.lt_of_succ_lt_succ hi)
      simp only [weight,modify_succ_cons,map_cons,sum_cons] at hweight ⊢
      omega

theorem weight_mergePending (name : Bytes) (cs : ChangeSet) (pending : List NamedChangeSet) :
    weight pending+cs.length ≤ weight (mergePending name cs pending) := by
  unfold mergePending
  cases hfind : pending.findIdx? fun c => c.name = name with
  | some i =>
    obtain ⟨hi,-⟩ := findIdx?_eq_some_iff_getElem.mp hfind
    exact (weight_modify hi cs).ge
  | none =>
    have hperm := perm_insertionSort (fun a b : NamedChangeSet => a.name ≤ b.name)
      (pending ++ [⟨name,cs⟩])
    have hsum := (hperm.map fun c : NamedChangeSet => c.changeset.length+1).sum_eq
    simp only [weight,hsum,map_append,sum_append,map_cons,map_nil,sum_cons,
      sum_nil]
    omega

theorem weight_applyChangeSet (hro : db.opts.readOnly = false) (name : Bytes) (cs : ChangeSet) :
    weight db.pendingLog.changesets ≤
        weight (db.applyChangeSet name cs).1.pendingLog.changesets ∧
      ((db.applyChangeSet name cs).2 ≠ none → weight db.pendingLog.changesets <
        weight (db.applyChangeSet name cs).1.pendingLog.changesets) := by
  unfold applyChangeSet
  split
  · exact ⟨le_rfl,by simp⟩
  · rename_i hne
    rw [if_neg (by simp [hro])]
    have hpos := length_pos_of_ne_nil hne
    have hweight := weight_mergePending name cs db.pendingLog.changesets
    exact ⟨by simp only; omega,fun _ => by simp only; omega⟩

theorem weight_mergeChangeSets (hro : db.opts.readOnly = false) (css : List NamedChangeSet)
    (he : (db.mergeChangeSets css).2 ≠ none) : weight db.pendingLog.changesets <
      weight (db.mergeChangeSets css).1.pendingLog.changesets := by
  induction css generalizing db with
  | nil => exact absurd rfl he
  | cons cs css ih =>
    obtain ⟨hle,hlt⟩ := weight_applyChangeSet hro cs.name cs.changeset
    have hopts := (db.touches_applyChangeSet cs.name cs.changeset).opts
    rw [mergeChangeSets] at he ⊢
    rcases hr : db.applyChangeSet cs.name cs.changeset with ⟨db₁,_ | e⟩ <;>
      rw [hr] at hle hlt hopts <;> simp only [hr] at he ⊢
    · exact hle.trans_lt (ih (by rw [hopts]; exact hro) he)
    · exact hlt (by simp)

theorem pendingLog_ne_of_weight (h : weight db.pendingLog.changesets <
    weight db'.pendingLog.changesets) : db'.pendingLog ≠ db.pendingLog := by
  intro heq
  rw [heq] at h
  exact lt_irrefl _ h

theorem pendingLog_applyChangeSets_ne (hro : db.opts.readOnly = false) (css : List NamedChangeSet)
    (he : (db.applyChangeSets css).2 ≠ none) :
    (db.applyChangeSets css).1.pendingLog ≠ db.pendingLog := by
  unfold applyChangeSets at he ⊢
  split
  · rename_i hnil
    rw [if_pos hnil] at he
    exact absurd rfl he
  · rename_i hne
    rw [if_neg hne,if_neg (by simp [hro])] at he
    rw [if_neg (by simp [hro])]
    split
    · rename_i hempty
      intro heq
      have hcss : css = [] := (congrArg WALEntry.changesets heq).trans hempty
      exact hne hcss
    · rename_i hpending
      rw [if_neg hpending] at he
      exact pendingLog_ne_of_weight (weight_mergeChangeSets hro css he)

theorem Untouched.refl (db : DB) : db.Untouched db := ⟨rfl,rfl,rfl⟩

theorem eq_of_edit_readOnly (hro : db.opts.readOnly = true) (he : db.edit c = some (db',some e)) :
    db' = db := by
  cases c <;> simp only [edit,Option.some.injEq,reduceCtorEq] at he
  case applyUpgrades us =>
    rw [applyUpgrades,if_pos hro] at he
    exact (Prod.mk.inj he).1.symm
  case applyChangeSets css =>
    rw [applyChangeSets,if_pos hro] at he
    split at he <;> exact (Prod.mk.inj he).1.symm
  case applyChangeSet name cs =>
    rw [applyChangeSet,if_pos hro] at he
    split at he <;> exact (Prod.mk.inj he).1.symm

theorem applyUpgrades_error (hro : db.opts.readOnly = false) {us : List TreeNameUpgrade}
    (he : db.applyUpgrades us = (db',some e)) :
    db' = { db with mtree := (db.mtree.applyUpgrades us).1 } := by
  rw [applyUpgrades,if_neg (by simp [hro])] at he
  rcases hr : db.mtree.applyUpgrades us with ⟨mtree,_ | e'⟩ <;> rw [hr] at he <;> cases he
  rfl

/-- Of a database whose index is right, a failed call leaves the trees, the index and the pending
entry as they were exactly if it is one of these. -/
theorem untouched_iff (hi : db.mtree.Indexed) (he : db.edit c = some (db',some e)) :
    db.Untouched db' ↔ db.Refuses c := by
  cases hro : db.opts.readOnly with
  | true =>
    rw [eq_of_edit_readOnly hro he]
    refine ⟨fun _ => ?_,fun _ => .refl db⟩
    cases c <;> first | exact hro | exact .inl hro
  | false =>
    cases c <;> simp only [edit,Option.some.injEq,reduceCtorEq] at he
    case applyUpgrades us =>
      have herr : (db.mtree.applyUpgrades us).2 ≠ none := by
        rw [applyUpgrades,if_neg (by simp [hro])] at he
        rcases hr : db.mtree.applyUpgrades us with ⟨mtree,_ | e'⟩ <;> rw [hr] at he <;> cases he
        simp
      have hsame := hi.applyUpgrades_same_iff herr
      rw [applyUpgrades_error hro he]
      simp only [Refuses,hro,Bool.false_eq_true,false_or,← hsame]
      exact ⟨fun hu => ⟨hu.trees,hu.treesByName⟩,fun hu => ⟨hu.1,hu.2,rfl⟩⟩
    case applyChangeSets css =>
      have hne := pendingLog_applyChangeSets_ne hro css (by rw [he]; simp)
      rw [he] at hne
      simp only [Refuses,hro,Bool.false_eq_true,iff_false]
      exact fun hu => hne hu.pendingLog
    case applyChangeSet name cs =>
      have hlt := (weight_applyChangeSet hro name cs).2 (by rw [he]; simp)
      rw [he] at hlt
      simp only [Refuses,hro,Bool.false_eq_true,iff_false]
      exact fun hu => pendingLog_ne_of_weight hlt hu.pendingLog

/-- A call that fails without a trace changes nothing at all. -/
theorem eq_of_refuses (hi : db.mtree.Indexed) (he : db.edit c = some (db',some e))
    (hr : db.Refuses c) : db' = db := by
  cases hro : db.opts.readOnly with
  | true => exact eq_of_edit_readOnly hro he
  | false =>
    cases c with
    | applyUpgrades us =>
      obtain ⟨htrees,hindex,-⟩ := (untouched_iff hi he).mpr hr
      rw [applyUpgrades_error hro (Option.some.inj he)] at htrees hindex ⊢
      have hsame := sameVersion_applyUpgrades db.mtree us
      have hinfo := hsame.lastCommitInfo
      have hiv := hsame.initialVersion
      have hmeta := hsame.metadata
      generalize (db.mtree.applyUpgrades us).1 = t at htrees hindex hinfo hiv hmeta ⊢
      cases t
      cases db with
      | mk opts mtree =>
        cases mtree
        simp only at htrees hindex hinfo hiv hmeta
        subst htrees hindex hinfo hiv hmeta
        rfl
    | applyChangeSets | applyChangeSet => cases hro.symm.trans hr
    | setInitialVersion | commit | rewriteSnapshot | rewriteSnapshotBackground | waitAsyncCommit
    | close => cases he

theorem Tracks.indexed {h : History} {d : Disk} (ht : db.Tracks h d) (hv : h.Valid)
    (hheld : db.phase.held = []) : db.mtree.Indexed := by
  obtain ⟨st,hat,-,hf,-⟩ := ht.state
  exact (((hv.version hat).proper.applyWALEntry (hf hheld).applied).congr (bare_bare _)).indexed

end DB

namespace System

variable {s s' : System} {h : History} {leftover : List (ℕ × SnapshotDir)}

/-- A call that fails without a trace. -/
def Refused (s : System) : Act → Prop
  | .call c => ∃ db ∈ s.db, ∃ p ∈ db.edit c, p.2.isSome ∧ db.Refuses c
  | _ => False

instance (s : System) (a : Act) : Decidable (s.Refused a) := by
  induction a using Act.casesOn <;> dsimp only [Refused] <;> infer_instance

/-- Regular actions, and calls that fail without a trace. -/
def Tolerant (s : System) (a : Act) : Prop := System.Regular [] s a ∨ s.Refused a

instance (s : System) (a : Act) : Decidable (s.Tolerant a) := inferInstanceAs (Decidable (_ ∨ _))

theorem goes_refused (hs : s.Faithful h leftover) {c : Call} (ha : s.Refused (.call c))
    (hstep : s.step (.call c) = some s') : s.GoesTo h leftover h s' := by
  obtain ⟨db,hdb,⟨db',err⟩,he,hsome,hr⟩ := ha
  obtain ⟨e,rfl⟩ := Option.isSome_iff_exists.mp hsome
  have hc : c ≠ .commit := by
    rintro rfl
    cases he
  cases turns_of_step hstep with
  | starts hdb₁ hidle hstart =>
    cases Option.some.inj (hdb.symm.trans hdb₁)
    have hheld : db.phase.held = [] := by rw [hidle]; rfl
    obtain rfl := DB.eq_of_refuses ((hs.db db hdb).indexed hs.valid hheld) he hr
    have hti := (hs.db _ hdb).idle hheld
    have hret := fun r => goes_ret hs hdb hidle hti rfl rfl (fun r hr => .inl ⟨r,hr,rfl⟩) hc r
    cases hstart with
    | refused r => exact hret r
    | edited he' =>
      cases he.symm.trans he'
      exact hret _
    | initialised | saveFailed | sends | writes | rewrites | clones | awaits | ends => cases he
    | closes _ hcall => rcases hcall with ⟨rfl,-⟩ | ⟨rfl,-⟩ <;> cases he

/-- The entries that calls of `Commit` have written replay to the states that these calls have
returned. -/
def Replays (s : System) : Prop :=
  ∃ (start : MultiTree) (entries : List WALEntry),
    (∀ e, Event.committed e ∈ s.trace → 0 < e.index ∧ entries[e.index-1]? = some e.data) ∧
    ∀ v view, Event.returned .commit (.version v) view ∈ s.trace → ∃ t : MultiTree,
      start.replayAll (entries.take (walIndex v start.initialVersion)) = .ok t.bare ∧
        t.version = v ∧ t.view = view

theorem Remembers.replays (hs : s.Remembers h leftover) : s.Replays := by
  have hv := hs.faithful.valid
  refine ⟨h.start,h.entries,fun e he => hs.tells _ he,fun v view hev => ?_⟩
  obtain ⟨t,ht,hversion,hne,hview,-⟩ := exists_place hv (hs.tells _ hev)
  rw [← walIndex_of_pos (Nat.pos_of_ne_zero hne)] at ht
  exact ⟨t,ht.state.2,hversion,hview⟩

theorem remembers_of_tolerant (hrun : Run System.step Tolerant {} s) :
    s = {} ∨ ∃ h, s.Remembers h [] ∧ h.start.version = 0 := by
  refine remembers_of_goes ?_ ?_ hrun
  · rintro a (ha | ha)
    · exact ha
    · cases a with
      | call c =>
        obtain ⟨db,hdb,-⟩ := ha
        cases hdb
      | load | proceed | write | rewrite | prune | crash | interrupt => exact ha.elim
  · rintro s h a s' hok hs (ha | ha) hstep
    · exact hs.step hok ha hstep
    · cases a with
      | call c => exact ⟨h,goes_refused hs ha hstep⟩
      | load | proceed | write | rewrite | prune | crash | interrupt => exact ha.elim

/-- In every run in which calls fail only without a trace, the next call that fails leaves the
trees, the index and the pending entry as they were exactly if it is such a call again, and the
logged entries replay to the committed states. -/
theorem failed_update_no_trace_iff {s : System} (hrun : Run System.step Tolerant {} s) :
    (∀ db ∈ s.db, db.phase = .idle → ∀ (db' : DB) (c : Call) (e : String),
      db.edit c = some (db',some e) → (db.Untouched db' ↔ db.Refuses c)) ∧ s.Replays := by
  rcases remembers_of_tolerant hrun with rfl | ⟨h,hs,-⟩
  · exact ⟨by rintro db ⟨⟩,{ initialVersion := 0 },[],by simp,by simp⟩
  · refine ⟨fun db hdb hidle db' c e he => ?_,hs.replays⟩
    exact DB.untouched_iff
      ((hs.faithful.db db hdb).indexed hs.faithful.valid (by rw [hidle]; rfl)) he

/-- A store is deleted that an empty database does not have; then a version is committed. -/
theorem failed_update_no_trace_new : ∃ s : System,
    s.replies = [.error "unknown tree name x",.version 1] ∧ s.Replays := by
  have hex : (exec System.step Tolerant ([.load (newOptions 100),
      .call (.applyUpgrades [{ name := [120], delete := true }])] ++ commitActs) {}).any (fun s =>
        s.replies = [.error "unknown tree name x",.version 1]) = true := by
    decide +kernel
  obtain ⟨s,hrun,hex⟩ := Run.exists_of_exec hex
  exact ⟨s,of_decide_eq_true hex,(failed_update_no_trace_iff hrun).2⟩

/-- A change set of an unknown store fails, but it stays in the pending entry, and the version that
is committed after it cannot be loaded. -/
theorem failed_update_breaks_load : ∃ (s : System) (d : Disk), s.Reachable ∧ s.db = none ∧
    s.replies = [.error "unknown tree name x",.version 1,.done] ∧
    DB.load {} s.disk = (.error "replay wal entry failed, unknown tree name x",d) := by
  have hex : (exec System.step (fun _ _ => True) ([.load (newOptions 100),
      .call (.applyChangeSets [⟨[120],[{ key := [1], value := [2] }]⟩])] ++ commitActs ++
        [.call .close]) {}).any (fun s => s.db = none ∧
        s.replies = [.error "unknown tree name x",.version 1,.done] ∧
        (DB.load {} s.disk).1 = .error "replay wal entry failed, unknown tree name x") = true := by
    decide +kernel
  obtain ⟨s,hrun,hex⟩ := Run.exists_of_exec hex
  obtain ⟨hclosed,hreplies,hload⟩ := of_decide_eq_true hex
  exact ⟨s,_,hrun,hclosed,hreplies,Prod.ext hload rfl⟩

end System

end Memiavl
