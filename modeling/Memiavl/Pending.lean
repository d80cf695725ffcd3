import Memiavl.Replay
import Memiavl.DbSteps

/-! The changes of a version, given in several calls: applied one after another they lead to
the trees that the merged entry leads to when it is replayed. -/
namespace Memiavl

open KeyedList List

/-- The name that an upgrade looks up. -/
def TreeNameUpgrade.lookedUp (u : TreeNameUpgrade) : Option Bytes :=
  if u.delete then some u.name
  else if u.renameFrom ≠ [] then some u.renameFrom
  else none

namespace MultiTree

/-- Every name that the upgrades look up is at that time the name of at most one tree. -/
def Unambiguous (next : UInt32) : List NamedTree → List TreeNameUpgrade → Prop
  | _,[] => True
  | trees,u::us => (∀ name ∈ u.lookedUp, AtMostOne NamedTree.name name trees) ∧
      match applyUpgrade next trees u with
      | .error _ => True
      | .ok trees => Unambiguous next trees us

instance Unambiguous.decidable (next : UInt32) :
    (us : List TreeNameUpgrade) → (trees : List NamedTree) → Decidable (Unambiguous next trees us)
  | [],_ => .isTrue trivial
  | u::us,trees =>
    match h : applyUpgrade next trees u with
    | .error _ => decidable_of_iff (∀ name ∈ u.lookedUp, AtMostOne NamedTree.name name trees)
        (by simp [Unambiguous,h])
    | .ok trees' =>
      have := Unambiguous.decidable next us trees'
      decidable_of_iff ((∀ name ∈ u.lookedUp, AtMostOne NamedTree.name name trees) ∧
        Unambiguous next trees' us) (by simp [Unambiguous,h])

variable {next : UInt32} {trees trees' r : List NamedTree}

theorem perm_swapDelete {i : ℕ} (hi : i < trees.length) :
    (swapDelete trees i).Perm (trees.eraseIdx i) := by
  obtain ⟨front,x,rest,rfl,rfl⟩ : ∃ front x rest, trees = front ++ x::rest ∧ front.length = i :=
    ⟨trees.take i,trees[i],trees.drop (i+1),by simp,by simp; omega⟩
  have herase : (front ++ x::rest).eraseIdx front.length = front ++ rest := by
    rw [eraseIdx_append_of_length_le le_rfl,Nat.sub_self,eraseIdx_cons_zero]
  rw [herase]
  rcases eq_nil_or_concat rest with rfl | ⟨rest,last,rfl⟩
  · simp [swapDelete]
  · -- The last tree stands where the deleted one was.
    have hswap : swapDelete (front ++ x::(rest ++ [last])) front.length = front ++ last::rest := by
      have hlast : (front ++ x::(rest ++ [last])).getLast? = some last := by
        rw [← cons_append,← append_assoc,getLast?_concat]
      rw [swapDelete,hlast]
      simp only [set_append_right _ _ le_rfl,Nat.sub_self,set_cons_zero]
      rw [← cons_append,← append_assoc,dropLast_concat]
    rw [concat_eq_append,hswap]
    exact (perm_append_singleton last rest).symm.append_left front

theorem findIdx?_of_perm {name : Bytes} (h : trees.Perm trees') {i : ℕ}
    (hi : trees.findIdx? (fun e => e.name = name) = some i) :
    ∃ j, trees'.findIdx? (fun e => e.name = name) = some j := by
  refine Option.isSome_iff_exists.mp ?_
  rw [findIdx?_isSome,List.any_eq_true]
  obtain ⟨hlt,hname,-⟩ := findIdx?_eq_some_iff_getElem.mp hi
  exact ⟨trees[i],h.mem_iff.mp (getElem_mem hlt),hname⟩

theorem applyUpgrade_of_perm {u : TreeNameUpgrade} (h : trees.Perm trees')
    (honce : ∀ name ∈ u.lookedUp, AtMostOne NamedTree.name name trees)
    (hu : applyUpgrade next trees u = .ok r) :
    ∃ r', applyUpgrade next trees' u = .ok r' ∧ r.Perm r' := by
  unfold applyUpgrade at hu ⊢
  split at hu
  · rename_i hdelete
    split at hu <;> cases hu
    rename_i i hi
    obtain ⟨j,hj⟩ := findIdx?_of_perm h hi
    have honce := honce u.name (by simp [TreeNameUpgrade.lookedUp,hdelete])
    refine ⟨swapDelete trees' j,by simp [hdelete,hj],?_⟩
    have hlt := (findIdx?_eq_some_iff_getElem.mp hi).1
    have hlt' := (findIdx?_eq_some_iff_getElem.mp hj).1
    refine (perm_swapDelete hlt).trans (.trans ?_ (perm_swapDelete hlt').symm)
    rw [eraseIdx_eq_filter honce hi,eraseIdx_eq_filter (honce.of_perm h) hj]
    exact h.filter _
  · rename_i hdelete
    split at hu
    · rename_i hfrom
      split at hu <;> cases hu
      rename_i i hi
      obtain ⟨j,hj⟩ := findIdx?_of_perm h hi
      have honce := honce u.renameFrom (by simp [TreeNameUpgrade.lookedUp,hdelete,hfrom])
      refine ⟨trees'.modify j fun e => { e with name := u.name },by simp [hdelete,hfrom,hj],?_⟩
      rw [modify_eq_map honce hi,modify_eq_map (honce.of_perm h) hj]
      exact h.map _
    · rename_i hfrom
      cases hu
      exact ⟨trees' ++ [⟨u.name,.newWithInitialVersion next⟩],by simp [hdelete,hfrom],
        h.append_right _⟩

theorem upgradeTrees_of_perm {us : List TreeNameUpgrade} (h : trees.Perm trees')
    (honce : Unambiguous next trees us) (hu : upgradeTrees next trees us = (r,none)) :
    ∃ r', upgradeTrees next trees' us = (r',none) ∧ r.Perm r' := by
  induction us generalizing trees trees' with
  | nil =>
    cases hu
    exact ⟨trees',rfl,h⟩
  | cons u us ih =>
    unfold upgradeTrees at hu
    split at hu
    · cases hu
    · rename_i r₁ hu₁
      obtain ⟨hhead,hrest⟩ := honce
      rw [hu₁] at hrest
      obtain ⟨r₁',hu₁',hperm⟩ := applyUpgrade_of_perm h hhead hu₁
      rw [upgradeTrees,hu₁']
      exact ih hperm hrest hu

theorem upgradeTrees_append {us us' : List TreeNameUpgrade}
    (h : upgradeTrees next trees us = (r,none)) :
    upgradeTrees next trees (us ++ us') = upgradeTrees next r us' := by
  induction us generalizing trees with
  | nil =>
    cases h
    rfl
  | cons u us ih =>
    rw [upgradeTrees] at h
    rw [cons_append,upgradeTrees]
    cases hu : applyUpgrade next trees u with
    | error e =>
      rw [hu] at h
      cases h
    | ok trees₁ =>
      rw [hu] at h
      exact ih h

/-- Upgrades in two calls are those of one call, if no name is ambiguous in the second. -/
theorem applyUpgrades_append {t t₁ t₂ : MultiTree} {us us' : List TreeNameUpgrade}
    (h : t.applyUpgrades us = (t₁,none)) (h' : t₁.applyUpgrades us' = (t₂,none))
    (honce : us ≠ [] →
      Unambiguous (UInt32.ofNat (nextVersion t₁.version t₁.initialVersion)) t₁.trees us') :
    t.applyUpgrades (us ++ us') = (t₂,none) := by
  by_cases hus : us = []
  · rw [applyUpgrades,if_pos hus] at h
    cases h
    rwa [hus]
  by_cases hus' : us' = []
  · rw [applyUpgrades,if_pos hus'] at h'
    cases h'
    rwa [hus',List.append_nil]
  obtain ⟨r,hr,hnodup,rfl⟩ := (applyUpgrades_eq_ok hus).mp h
  obtain ⟨r',hr',hnodup',rfl⟩ := (applyUpgrades_eq_ok hus').mp h'
  have hsorted : (sortByName r).Perm r := perm_insertionSort _ r
  obtain ⟨r'',hr'',hperm⟩ := upgradeTrees_of_perm hsorted (honce hus) hr'
  refine (applyUpgrades_eq_ok (by simp [hus])).mpr ⟨r'',?_,?_,?_⟩
  · rw [upgradeTrees_append hr]
    exact hr''
  · exact (hperm.map NamedTree.name).nodup_iff.mp hnodup'
  · have hsame : sortByName r' = sortByName r'' := insertionSort_eq_of_perm hperm hnodup'
    rw [hsame]

end MultiTree

namespace DB

open MultiTree

theorem pairsFor_modify {name : Bytes} {cs : ChangeSet} {pending : List NamedChangeSet}
    (hnodup : (pending.map NamedChangeSet.name).Nodup) (n : Bytes) :
    pairsFor n (pending.map fun c =>
        if c.name = name then { c with changeset := c.changeset ++ cs } else c) =
      pairsFor n pending ++
        if name = n ∧ name ∈ pending.map NamedChangeSet.name then cs else [] := by
  induction pending with
  | nil => simp
  | cons c pending ih =>
    obtain ⟨hnot,hnodup⟩ := nodup_cons.mp hnodup
    rw [map_cons,pairsFor_cons,pairsFor_cons,ih hnodup]
    by_cases hc : c.name = name
    · subst hc
      by_cases hn : c.name = n
      · have hnone : pairsFor n pending = [] := by
          rw [pairsFor,filter_eq_nil_iff.mpr,flatMap_nil]
          intro c' hc' heq
          simp only [decide_eq_true_eq] at heq
          exact hnot (List.mem_map.mpr ⟨c',hc',heq.trans hn.symm⟩)
        simp [hn,hnone,hn ▸ hnot]
      · simp [hn]
    · have hmem : (name = n ∧ name ∈ (c::pending).map NamedChangeSet.name) ↔
          (name = n ∧ name ∈ pending.map NamedChangeSet.name) := by
        simp [Ne.symm hc]
      simp only [hc,if_false,append_assoc,hmem]

theorem pairsFor_perm {pending pending' : List NamedChangeSet} (h : pending.Perm pending')
    (hnodup : (pending.map NamedChangeSet.name).Nodup) (n : Bytes) :
    pairsFor n pending = pairsFor n pending' := by
  have hfilter := h.filter (·.name = n)
  have honce : (pending.filter (·.name = n)).length ≤ 1 := AtMostOne.of_nodup hnodup n
  rw [pairsFor,pairsFor]
  generalize pending.filter (·.name = n) = l at hfilter honce ⊢
  rcases l with _ | ⟨c,_ | ⟨c',l⟩⟩
  · rw [hfilter.nil_eq]
  · rw [singleton_perm.mp hfilter]
  · simp at honce

theorem mergePending_spec {name : Bytes} {cs : ChangeSet} {pending : List NamedChangeSet}
    (hnodup : (pending.map NamedChangeSet.name).Nodup) :
    ((mergePending name cs pending).map NamedChangeSet.name).Nodup ∧
      (∀ n, n ∈ (mergePending name cs pending).map NamedChangeSet.name ↔
        n = name ∨ n ∈ pending.map NamedChangeSet.name) ∧
      ∀ n, pairsFor n (mergePending name cs pending) =
        pairsFor n pending ++ if name = n then cs else [] := by
  unfold mergePending
  cases hfind : pending.findIdx? fun c => c.name = name with
  | some i =>
    have hmem : name ∈ pending.map NamedChangeSet.name := by
      obtain ⟨hi,hname,-⟩ := findIdx?_eq_some_iff_getElem.mp hfind
      exact List.mem_map.mpr ⟨pending[i],getElem_mem hi,by simpa using hname⟩
    have hnames : (pending.map fun c => if c.name = name then
          { c with changeset := c.changeset ++ cs } else c).map NamedChangeSet.name =
        pending.map NamedChangeSet.name := by
      rw [List.map_map]
      refine map_congr_left fun c _ => ?_
      simp only [Function.comp_apply]
      split <;> rfl
    simp only [modify_eq_map (AtMostOne.of_nodup hnodup name) hfind,hnames,pairsFor_modify hnodup,
      hmem,and_true]
    refine ⟨hnodup,fun n => ?_,fun n => trivial⟩
    constructor
    · exact .inr
    · rintro (rfl | h)
      · exact hmem
      · exact h
  | none =>
    have hnot : name ∉ pending.map NamedChangeSet.name := by
      intro hmem
      obtain ⟨c,hc,rfl⟩ := List.mem_map.mp hmem
      simpa using findIdx?_eq_none_iff.mp hfind c hc
    have hperm := perm_insertionSort (fun a b : NamedChangeSet => a.name ≤ b.name)
      (pending ++ [⟨name,cs⟩])
    have hnodup' : ((pending ++ [NamedChangeSet.mk name cs]).map NamedChangeSet.name).Nodup := by
      rw [map_append,nodup_append]
      refine ⟨hnodup,by simp,?_⟩
      rintro n hn m hm rfl
      simp only [map_cons,map_nil,mem_singleton] at hm
      exact hnot (hm ▸ hn)
    refine ⟨(hperm.map _).nodup_iff.mpr hnodup',fun n => ?_,fun n => ?_⟩
    · rw [(hperm.map NamedChangeSet.name).mem_iff]
      simp [or_comm]
    · rw [← pairsFor_perm hperm.symm hnodup' n,pairsFor,filter_append,flatMap_append,← pairsFor,← pairsFor,pairsFor_cons,
        pairsFor_nil,List.append_nil]

/-- The trees are those of `st` with the pending changes. -/
structure Follows (db : DB) (st : MultiTree) : Prop where
  applied : st.applyWALEntry db.pendingLog = (db.mtree.bare,none)
  nodup : (db.pendingLog.changesets.map NamedChangeSet.name).Nodup

/-- Upgrades come before change sets and look up no ambiguous name when others are pending, and
a list of change sets that is kept as it is has different names. -/
def Orderly (db : DB) : Call → Prop
  | .applyUpgrades us => us = [] ∨ db.pendingLog.changesets = [] ∧
      (db.pendingLog.upgrades ≠ [] → Unambiguous
        (UInt32.ofNat (nextVersion db.mtree.version db.mtree.initialVersion)) db.mtree.trees us)
  | .applyChangeSets css => db.pendingLog.changesets = [] → (css.map NamedChangeSet.name).Nodup
  | _ => True

instance (db : DB) (c : Call) : Decidable (db.Orderly c) := by
  unfold Orderly
  split <;> infer_instance

variable {db db' : DB} {st : MultiTree}

section
variable (h : db.Follows st)
include h

theorem Follows.congr (hmtree : db'.mtree = db.mtree) (hpending : db'.pendingLog = db.pendingLog) :
    db'.Follows st :=
  ⟨by rw [hpending,hmtree]; exact h.applied,by rw [hpending]; exact h.nodup⟩

theorem Follows.applyUpgrades {us : List TreeNameUpgrade} (ho : db.Orderly (.applyUpgrades us))
    (he : db.applyUpgrades us = (db',none)) : db'.Follows st := by
  unfold DB.applyUpgrades at he
  split at he
  · cases he
  rcases hu : db.mtree.applyUpgrades us with ⟨mtree,_ | e⟩ <;> rw [hu] at he <;> cases he
  rcases ho with rfl | ⟨hnil,honce⟩
  · cases hu
    simpa using h
  · have hst : st.applyUpgrades db.pendingLog.upgrades = (db.mtree.bare,none) := by
      have happ := h.applied
      unfold applyWALEntry at happ
      rcases hst : st.applyUpgrades db.pendingLog.upgrades with ⟨t₁,_ | e⟩ <;> rw [hst] at happ
      · rw [hnil] at happ
        cases happ
        rfl
      · cases happ
    have hbare : db.mtree.bare.applyUpgrades us = (mtree.bare,none) := by
      rw [bare_applyUpgrades,hu]
    refine ⟨?_,h.nodup⟩
    rw [applyWALEntry,applyUpgrades_append hst hbare honce]
    simp only [hnil]
    rfl

theorem Follows.applyChangeSet (hst : st.Proper) {name : Bytes} {cs : ChangeSet}
    (he : db.applyChangeSet name cs = (db',none)) : db'.Follows st := by
  unfold DB.applyChangeSet at he
  split at he
  · cases he
    exact h
  split at he
  · cases he
  rcases hu : db.mtree.applyChangeSet name cs with ⟨mtree,_ | e⟩ <;> rw [hu] at he <;> cases he
  obtain ⟨t₁,hups,ht₁,hnames,hbare⟩ := (applyWALEntry_eq_ok hst).mp h.applied
  have hmtree : db.mtree.bare.applyChangeSet name cs = (mtree.bare,none) := by
    rw [bare_applyChangeSet,hu]
  rw [hbare] at hmtree
  obtain ⟨hmem,heq⟩ := (applyChangeSet_eq_ok (ht₁.withPairs _).indexed).mp hmtree
  obtain ⟨hnodup,hmerged,hpairs⟩ := @mergePending_spec name cs _ h.nodup
  refine ⟨(applyWALEntry_eq_ok hst).mpr ⟨t₁,hups,ht₁,?_,?_⟩,hnodup⟩
  · intro c hc
    rcases (hmerged c.name).mp (List.mem_map_of_mem hc) with hname | hold
    · rw [hname]
      simpa using hmem
    · obtain ⟨c',hc',hname⟩ := List.mem_map.mp hold
      exact hname ▸ hnames c' hc'
  · rw [heq,withPairs_withPairs]
    simp only [hpairs]

theorem Follows.mergeChangeSets (hst : st.Proper) {css : List NamedChangeSet}
    (he : db.mergeChangeSets css = (db',none)) : db'.Follows st := by
  induction css generalizing db with
  | nil =>
    cases he
    exact h
  | cons cs css ih =>
    rw [DB.mergeChangeSets] at he
    rcases hcs : db.applyChangeSet cs.name cs.changeset with ⟨db₁,_ | e⟩ <;> rw [hcs] at he
    · exact ih (h.applyChangeSet hst hcs) he
    · cases he

theorem Follows.applyChangeSets (hst : st.Proper) {css : List NamedChangeSet}
    (ho : db.Orderly (.applyChangeSets css)) (he : db.applyChangeSets css = (db',none)) :
    db'.Follows st := by
  unfold DB.applyChangeSets at he
  split at he
  · cases he
    exact h
  split at he
  · cases he
  split at he
  · rename_i hnil
    rcases hu : db.mtree.applyChangeSets css with ⟨mtree,_ | e⟩ <;> simp only [hu] at he <;> cases he
    have hbare : db.mtree.bare.applyChangeSets css = (mtree.bare,none) := by
      rw [bare_applyChangeSets,hu]
    refine ⟨?_,ho hnil⟩
    have happ := h.applied
    unfold applyWALEntry at happ ⊢
    rcases hups : st.applyUpgrades db.pendingLog.upgrades with ⟨t₁,_ | e⟩ <;> rw [hups] at happ
    · rw [hnil] at happ
      cases happ
      exact hbare
    · cases happ
  · exact h.mergeChangeSets hst he

theorem Follows.edit (hst : st.Proper) {c : Call} (ho : db.Orderly c)
    (he : db.edit c = some (db',none)) : db'.Follows st := by
  cases c with
  | applyUpgrades us => exact h.applyUpgrades ho (Option.some.inj he)
  | applyChangeSets css => exact h.applyChangeSets hst ho (Option.some.inj he)
  | applyChangeSet name cs => exact h.applyChangeSet hst (Option.some.inj he)
  | setInitialVersion | commit | rewriteSnapshot | rewriteSnapshotBackground | waitAsyncCommit
  | close => cases he

end

end DB

/-- The trees with other versions. -/
def NamedTree.atVersion (v : Version) (e : NamedTree) : NamedTree := ⟨e.name,⟨v,e.tree.root⟩⟩

namespace MultiTree

/-- The version of the trees that an upgrade adds before the first commit. -/
def firstVersion (iv : UInt32) : Version :=
  (StoreTree.newWithInitialVersion (UInt32.ofNat (nextVersion 0 iv))).version

variable {v : Version} {next next' : UInt32}

@[simp] theorem name_comp_atVersion (v : Version) :
    NamedTree.name ∘ NamedTree.atVersion v = NamedTree.name := rfl

theorem map_swapDelete (f : NamedTree → NamedTree) (trees : List NamedTree) (i : ℕ) :
    swapDelete (trees.map f) i = (swapDelete trees i).map f := by
  unfold swapDelete
  rw [getLast?_map]
  cases trees.getLast? with
  | none => rfl
  | some last => simp [map_set,map_dropLast]

theorem applyUpgrade_atVersion (hv : (StoreTree.newWithInitialVersion next').version = v)
    (trees : List NamedTree) (u : TreeNameUpgrade) :
    applyUpgrade next' (trees.map (.atVersion v)) u =
      (applyUpgrade next trees u).map (List.map (.atVersion v)) := by
  have hfind : ∀ name, (trees.map (NamedTree.atVersion v)).findIdx? (fun e => e.name = name) =
      trees.findIdx? fun e => e.name = name := by
    intro name
    rw [findIdx?_map]
    rfl
  have hnew : ∀ next, (StoreTree.newWithInitialVersion next).root = none := by
    intro next
    unfold StoreTree.newWithInitialVersion
    split <;> rfl
  unfold applyUpgrade
  simp only [hfind]
  split
  · split
    · rfl
    · simp [Except.map,map_swapDelete]
  · split
    · split
      · rfl
      · simp only [Except.map,Except.ok.injEq]
        refine ext_getElem? fun k => ?_
        simp only [getElem?_modify,getElem?_map]
        cases trees[k]? with
        | none => rfl
        | some e =>
          simp only [Option.map_some,Functor.map]
          split <;> rfl
    · have hadd : NamedTree.mk u.name (.newWithInitialVersion next') =
          NamedTree.atVersion v ⟨u.name,.newWithInitialVersion next⟩ := by
        rw [NamedTree.atVersion,hnew,← hv,← hnew next']
      simp [Except.map,hadd]

theorem upgradeTrees_atVersion (hv : (StoreTree.newWithInitialVersion next').version = v)
    (trees : List NamedTree) (us : List TreeNameUpgrade) :
    upgradeTrees next' (trees.map (.atVersion v)) us =
      ((upgradeTrees next trees us).1.map (.atVersion v),(upgradeTrees next trees us).2) := by
  induction us generalizing trees with
  | nil => rfl
  | cons u us ih =>
    unfold upgradeTrees
    rw [applyUpgrade_atVersion hv]
    cases applyUpgrade next trees u with
    | error e => rfl
    | ok trees₁ => exact ih trees₁

theorem sortByName_atVersion (v : Version) (trees : List NamedTree) :
    sortByName (trees.map (.atVersion v)) = (sortByName trees).map (.atVersion v) := by
  unfold sortByName
  exact (map_insertionSort (fun a b : NamedTree => a.name ≤ b.name)
    (fun a b : NamedTree => a.name ≤ b.name) (.atVersion v) trees fun _ _ _ _ => Iff.rfl).symm

/-- The same upgrades of an empty database with another initial version. -/
theorem applyUpgrades_atVersion {st t₁ : MultiTree} (h0 : st.version = 0) (hnil : st.trees = [])
    {us : List TreeNameUpgrade} (h : st.applyUpgrades us = (t₁,none)) (iv : UInt32) :
    { st with initialVersion := iv }.applyUpgrades us = ({ t₁ with
      initialVersion := iv
      trees := t₁.trees.map (.atVersion (firstVersion iv)) },none) := by
  by_cases hus : us = []
  · subst hus
    cases h
    simp [applyUpgrades,hnil]
  · obtain ⟨trees,hu,hnodup,rfl⟩ := (applyUpgrades_eq_ok hus).mp h
    refine (applyUpgrades_eq_ok hus).mpr ⟨trees.map (.atVersion (firstVersion iv)),?_,?_,?_⟩
    · have hmap : upgradeTrees (UInt32.ofNat (nextVersion 0 iv)) ([].map (.atVersion _)) us =
          ((upgradeTrees (UInt32.ofNat (nextVersion st.version st.initialVersion)) [] us).1.map
            (.atVersion _),
          (upgradeTrees (UInt32.ofNat (nextVersion st.version st.initialVersion)) [] us).2) :=
        upgradeTrees_atVersion rfl [] us
      rw [← hnil,hu,hnil] at hmap
      change upgradeTrees (UInt32.ofNat (nextVersion st.version iv)) st.trees us = _
      rw [h0,hnil]
      exact hmap
    · rwa [List.map_map,name_comp_atVersion]
    · have hindex : indexOf ((sortByName trees).map (.atVersion (firstVersion iv))) =
          indexOf (sortByName trees) := indexOf_congr (by rw [List.map_map,name_comp_atVersion])
      simp only [sortByName_atVersion,hindex]

end MultiTree

theorem StoreTree.applyChangeSet_empty {t : StoreTree} {cs : ChangeSet}
    (h : (t.applyChangeSet cs).isEmpty = true) (v : Version) :
    (StoreTree.mk v t.root).applyChangeSet cs = ⟨v,none⟩ := by
  have hshape : ((StoreTree.mk v t.root).applyChangeSet cs).isEmpty = true := by
    rw [isEmpty_eq_shape] at h ⊢
    rwa [shape_applyChangeSet (show (StoreTree.mk v t.root).shape = t.shape from rfl) cs]
  have hv := version_applyChangeSet (StoreTree.mk v t.root) cs
  generalize (StoreTree.mk v t.root).applyChangeSet cs = t' at hshape hv
  obtain ⟨v',_ | r⟩ := t'
  · rw [show v' = v from hv]
  · cases hshape

theorem StoreTree.setInitialVersion_empty (iv : UInt32) :
    (if 1 < iv.toNat then (StoreTree.mk 0 none).setInitialVersion iv else ⟨0,none⟩) =
      ⟨MultiTree.firstVersion iv,none⟩ := by
  unfold MultiTree.firstVersion nextVersion newWithInitialVersion
  by_cases h : 1 < iv.toNat
  · have hof : UInt32.ofNat iv.toNat = iv := UInt32.ofNat_toNat
    have hle : ¬iv ≤ 1 := by
      rw [UInt32.le_iff_toNat_le]
      exact not_le.mpr h
    have hlt : ¬iv < 1 := fun hlt => hle (UInt32.le_of_lt hlt)
    simp [h,hof,hle,hlt,setInitialVersion]
  · simp [h]

namespace DB

open MultiTree

variable {db : DB} {st mtree : MultiTree}

theorem Follows.setInitialVersion (h : db.Follows st) (hst : st.Proper) (h0 : st.version = 0)
    (hnil : st.trees = []) (hfresh : ∀ e ∈ db.mtree.trees, e.tree.version = 0) {iv : ℤ}
    (hs : db.mtree.setInitialVersion iv = (mtree,none)) :
    Follows { db with mtree } { st with initialVersion := mtree.initialVersion } := by
  unfold MultiTree.setInitialVersion at hs
  split at hs
  · cases hs
  split at hs
  · cases hs
  split at hs <;> cases hs
  rename_i hempty
  generalize UInt32.ofNat (iv % 2^32).toNat = iv'
  obtain ⟨t₁,hups,ht₁,hnames,hbare⟩ := (applyWALEntry_eq_ok hst).mp h.applied
  have hproper : Proper { st with initialVersion := iv' } := ⟨⟨hst.indexed.strict,hst.indexed.index⟩,hst.avl⟩
  refine ⟨(applyWALEntry_eq_ok hproper).mpr ⟨_,applyUpgrades_atVersion h0 hnil hups iv',?_,?_,?_⟩,
    h.nodup⟩
  · exact hproper.applyUpgrades (applyUpgrades_atVersion h0 hnil hups iv')
  · intro cs hcs
    have := hnames cs hcs
    rwa [names,List.map_map,name_comp_atVersion]
  · have htrees := congrArg MultiTree.trees hbare
    change db.mtree.trees = t₁.trees.map _ at htrees
    -- Every tree is empty and has no version.
    have hall : ∀ e ∈ t₁.trees, (e.tree.applyChangeSet
        (pairsFor e.name db.pendingLog.changesets)).isEmpty = true ∧ e.tree.version = 0 := by
      intro e he
      have hmem := htrees ▸ List.mem_map_of_mem (f := fun e : NamedTree => NamedTree.mk e.name
        (e.tree.applyChangeSet (pairsFor e.name db.pendingLog.changesets))) he
      refine ⟨by simpa using find?_eq_none.mp hempty _ hmem,?_⟩
      simpa using hfresh _ hmem
    have hold : db.mtree.trees = t₁.trees.map fun e => ⟨e.name,⟨0,none⟩⟩ := by
      rw [htrees]
      refine map_congr_left fun e he => ?_
      obtain ⟨he,hv⟩ := hall e he
      rw [← StoreTree.applyChangeSet_empty he 0,← hv]
    have hindex : db.mtree.treesByName = t₁.treesByName := (congrArg treesByName hbare :)
    have hinfo : (⟨db.mtree.version,[]⟩ : CommitInfo) = t₁.lastCommitInfo :=
      (congrArg lastCommitInfo hbare :)
    have hmetadata : {} = t₁.metadata := (congrArg MultiTree.metadata hbare :)
    change MultiTree.mk _ _ _ _ _ = MultiTree.mk _ _ _ _ _
    rw [MultiTree.mk.injEq]
    refine ⟨rfl,?_,hindex,hinfo,hmetadata⟩
    have hnew : (t₁.trees.map (NamedTree.atVersion (firstVersion iv'))).map (fun e =>
          { e with tree := e.tree.applyChangeSet (pairsFor e.name db.pendingLog.changesets) }) =
        t₁.trees.map fun e => ⟨e.name,⟨firstVersion iv',none⟩⟩ := by
      rw [List.map_map]
      refine map_congr_left fun e he => ?_
      simp only [Function.comp_apply,NamedTree.atVersion,
        StoreTree.applyChangeSet_empty (hall e he).1]
    refine Eq.trans ?_ hnew.symm
    have hinit := StoreTree.setInitialVersion_empty iv'
    simp only [putInitialVersion,hold]
    split at hinit
    · rename_i hiv
      simp [hiv,hinit,Function.comp_def]
    · rename_i hiv
      simp [hiv,← hinit]

end DB

end Memiavl
