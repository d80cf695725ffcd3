import Memiavl.MultiTree
import Memiavl.Library.KeyedList

/-! What the trees of a database depend on: replay of the log as a function of the trees, the
initial version and the version, the effect of change sets by name, and of upgrades that are
given in several calls. -/
namespace Memiavl

open List

namespace MultiTree

/-- The trees with their version, without commit info of stores and snapshot metadata. -/
def bare (t : MultiTree) : MultiTree :=
  { t with lastCommitInfo := ⟨t.version,[]⟩, metadata := {} }

@[simp] theorem trees_bare (t : MultiTree) : t.bare.trees = t.trees := rfl
@[simp] theorem version_bare (t : MultiTree) : t.bare.version = t.version := rfl
@[simp] theorem initialVersion_bare (t : MultiTree) : t.bare.initialVersion = t.initialVersion := rfl
@[simp] theorem treesByName_bare (t : MultiTree) : t.bare.treesByName = t.treesByName := rfl
@[simp] theorem bare_bare (t : MultiTree) : t.bare.bare = t.bare := rfl

variable {t t' : MultiTree}

theorem bare_eq_iff : t.bare = t'.bare ↔ t.initialVersion = t'.initialVersion ∧
    t.trees = t'.trees ∧ t.treesByName = t'.treesByName ∧ t.version = t'.version := by
  simp [bare]

theorem buildCommitInfo_congr (h : t.bare = t'.bare) (v : ℕ) :
    t.buildCommitInfo v = t'.buildCommitInfo v := by
  rw [buildCommitInfo,buildCommitInfo,(bare_eq_iff.mp h).2.1]

theorem position_congr (h : t.bare = t'.bare) : t.position = t'.position := by
  obtain ⟨hiv,-,-,hv⟩ := bare_eq_iff.mp h
  rw [position,position,hiv,hv]

theorem bare_applyUpgrades (t : MultiTree) (us : List TreeNameUpgrade) :
    t.bare.applyUpgrades us = ((t.applyUpgrades us).1.bare,(t.applyUpgrades us).2) := by
  unfold applyUpgrades
  split
  · rfl
  · simp only [version_bare,initialVersion_bare,trees_bare]
    split <;> rfl

theorem bare_applyChangeSet (t : MultiTree) (name : Bytes) (cs : ChangeSet) :
    t.bare.applyChangeSet name cs =
      ((t.applyChangeSet name cs).1.bare,(t.applyChangeSet name cs).2) := by
  unfold applyChangeSet
  rw [treesByName_bare]
  split <;> rfl

theorem bare_applyChangeSets (t : MultiTree) (css : List NamedChangeSet) :
    t.bare.applyChangeSets css = ((t.applyChangeSets css).1.bare,(t.applyChangeSets css).2) := by
  induction css generalizing t with
  | nil => rfl
  | cons cs css ih =>
    unfold applyChangeSets
    rw [bare_applyChangeSet]
    obtain ⟨t₁,_ | e⟩ := t.applyChangeSet cs.name cs.changeset
    · exact ih t₁
    · rfl

theorem bare_applyWALEntry (t : MultiTree) (e : WALEntry) :
    t.bare.applyWALEntry e = ((t.applyWALEntry e).1.bare,(t.applyWALEntry e).2) := by
  unfold applyWALEntry
  rw [bare_applyUpgrades]
  obtain ⟨t₁,_ | err⟩ := t.applyUpgrades e.upgrades
  · exact bare_applyChangeSets t₁ e.changesets
  · rfl

theorem bare_saveVersion (t : MultiTree) (update : Bool) :
    t.bare.saveVersion false = ((t.saveVersion update).1.bare,(t.saveVersion update).2) := by
  unfold saveVersion
  simp only [trees_bare]
  obtain ⟨trees,_ | e⟩ := saveTrees t.trees
  · cases update <;> rfl
  · rfl

variable {v : ℕ} {trees : List NamedTree} {us : List TreeNameUpgrade} {update : Bool}

theorem lastCommitInfo_saveVersion (h : t.saveVersion true = (t',.ok v)) :
    t'.lastCommitInfo = t'.buildCommitInfo t'.version := by
  unfold saveVersion at h
  simp only at h
  split at h <;> cases h
  rfl

theorem bare_replay (t : MultiTree) (e : WALEntry) : t.bare.replay e = (t.replay e).map bare := by
  unfold replay
  rw [bare_applyWALEntry]
  obtain ⟨t₁,_ | err⟩ := t.applyWALEntry e
  · simp only
    rw [bare_saveVersion t₁ false]
    obtain ⟨t₂,_ | v⟩ := t₁.saveVersion false <;> rfl
  · rfl

/-- Replays a list of entries. -/
def replayAll (t : MultiTree) : List WALEntry → Except String MultiTree
  | [] => .ok t
  | e::es =>
    match t.replay e with
    | .error err => .error err
    | .ok t => replayAll t es

theorem bare_replayAll (t : MultiTree) (es : List WALEntry) :
    t.bare.replayAll es = (t.replayAll es).map bare := by
  induction es generalizing t with
  | nil => rfl
  | cons e es ih =>
    unfold replayAll
    rw [bare_replay]
    cases t.replay e with
    | error err => rfl
    | ok t₁ => exact ih t₁

theorem replayAll_append (t : MultiTree) (es es' : List WALEntry) :
    t.replayAll (es ++ es') = (t.replayAll es).bind fun t => t.replayAll es' := by
  induction es generalizing t with
  | nil => rfl
  | cons e es ih =>
    rw [cons_append,replayAll,replayAll]
    cases t.replay e with
    | error err => rfl
    | ok t₁ => exact ih t₁

theorem replayFrom_eq_replayAll {wal : IndexedLog WALEntry} {i n : ℕ} (hi : wal.base < i)
    (hn : i+n ≤ wal.lastIndex+1) (t : MultiTree) :
    replayFrom wal t i n = t.replayAll ((wal.entries.drop (i-wal.base-1)).take n) := by
  induction n generalizing t i with
  | zero => rfl
  | succ n ih =>
    have hlt : i-wal.base-1 < wal.entries.length := by
      rw [IndexedLog.lastIndex] at hn
      omega
    have hread : wal.read i = some wal.entries[i-wal.base-1] := by
      rw [IndexedLog.read,if_pos hi,getElem?_eq_getElem hlt]
    rw [drop_eq_getElem_cons hlt,take_succ_cons]
    unfold replayFrom replayAll
    rw [hread]
    simp only
    cases t.replay wal.entries[i-wal.base-1] with
    | error err => rfl
    | ok t₁ =>
      rw [show i-wal.base-1+1 = i+1-wal.base-1 by omega]
      exact ih (by omega) (by omega) t₁

theorem caughtUp_replayAll {es : List WALEntry} (ht : t.Sane) (h : t.replayAll es = .ok t') :
    CaughtUp t t' es.length := by
  induction es generalizing t with
  | nil =>
    cases h
    exact ⟨rfl,rfl,le_rfl,ht,rfl⟩
  | cons e es ih =>
    unfold replayAll at h
    split at h
    · cases h
    · rename_i t₁ hr
      have ha := advances_replay hr
      have hc := ih (ha.sane ht) h
      have hle : t.version ≤ t₁.version := by
        rw [ha.version]
        exact (lt_nextVersion ..).le
      refine ⟨hc.initialVersion.trans ha.initialVersion,hc.metadata.trans ha.metadata,
        hle.trans hc.version_le,hc.sane,?_⟩
      rw [hc.position,ha.position_eq ht,length_cons]
      omega

def names (t : MultiTree) : List Bytes := t.trees.map NamedTree.name

structure Indexed (t : MultiTree) : Prop where
  strict : KeyedList.Strict NamedTree.name t.trees
  index : t.treesByName = indexOf t.trees

theorem indexOf_congr {trees' : List NamedTree}
    (h : trees'.map NamedTree.name = trees.map NamedTree.name) :
    indexOf trees' = indexOf trees := by
  have heq : ∀ l : List NamedTree, indexOf l = (l.map NamedTree.name).zipIdx := by
    intro l
    rw [zipIdx_map]
    rfl
  rw [heq,heq,h]

theorem Indexed.congr (ht : t.Indexed) (hnames : t'.names = t.names)
    (hindex : t'.treesByName = t.treesByName) : t'.Indexed := by
  refine ⟨?_,?_⟩
  · rw [KeyedList.Strict]
    rw [← names,hnames]
    exact ht.strict
  · rw [hindex,ht.index,indexOf_congr hnames]

/-- A rebuilt index has the positions of all trees, whose names are different. -/
theorem buildIndex_eq_ok {i : ℕ} {index index' : List (Bytes × ℕ)} :
    buildIndex i index trees = (index',none) ↔ (trees.map NamedTree.name).Nodup ∧
      (∀ e ∈ trees, index.lookup e.name = none) ∧
      index' = index ++ KeyedList.positions NamedTree.name i trees := by
  induction trees generalizing i index with
  | nil =>
    simp only [buildIndex,KeyedList.positions,zipIdx_nil,map_nil,List.append_nil]
    constructor
    · rintro ⟨⟩
      simp
    · rintro ⟨-,-,rfl⟩
      rfl
  | cons e es ih =>
    have hpos : KeyedList.positions NamedTree.name i (e::es) =
        (e.name,i)::KeyedList.positions NamedTree.name (i+1) es := rfl
    have hlookup : ∀ e', (index ++ [(e.name,i)]).lookup e' = none ↔
        index.lookup e' = none ∧ e' ≠ e.name := by
      intro e'
      rw [lookup_append,Option.or_eq_none_iff,lookup_cons,lookup_nil]
      by_cases he : e' = e.name
      · simp [he]
      · simp [beq_false_of_ne he,he]
    unfold buildIndex
    split
    · rename_i hsome
      have hne := Option.isSome_iff_ne_none.mp hsome
      simp only [Prod.mk.injEq,reduceCtorEq,and_false,mem_cons,forall_eq_or_imp,hne,false_and]
    · rename_i hnone
      have hnone := Option.not_isSome_iff_eq_none.mp hnone
      rw [ih,hpos,append_assoc,singleton_append,map_cons,nodup_cons]
      simp only [hlookup,mem_cons,forall_eq_or_imp,hnone,true_and,List.mem_map,not_exists,
        not_and]
      constructor
      · rintro ⟨hnodup,hall,rfl⟩
        exact ⟨⟨fun e' he' => (hall e' he').2,hnodup⟩,fun e' he' => (hall e' he').1,rfl⟩
      · rintro ⟨⟨hother,hnodup⟩,hall,rfl⟩
        exact ⟨hnodup,fun e' he' => ⟨hall e' he',hother e' he'⟩,rfl⟩

theorem applyUpgrades_eq_ok (hus : us ≠ []) :
    t.applyUpgrades us = (t',none) ↔ ∃ trees,
      upgradeTrees (UInt32.ofNat (nextVersion t.version t.initialVersion)) t.trees us =
        (trees,none) ∧ (trees.map NamedTree.name).Nodup ∧
      t' = { t with trees := sortByName trees, treesByName := indexOf (sortByName trees) } := by
  have hperm : ∀ trees : List NamedTree, ((sortByName trees).map NamedTree.name).Nodup ↔
      (trees.map NamedTree.name).Nodup := fun trees =>
    ((perm_insertionSort _ trees).map NamedTree.name).nodup_iff
  have hindex : ∀ (trees : List NamedTree) index', buildIndex 0 [] (sortByName trees) =
      (index',none) ↔ (trees.map NamedTree.name).Nodup ∧ index' = indexOf (sortByName trees) := by
    intro trees index'
    rw [buildIndex_eq_ok,hperm]
    simp [indexOf,KeyedList.positions]
  unfold applyUpgrades
  rw [if_neg hus]
  simp only
  generalize upgradeTrees (UInt32.ofNat (nextVersion t.version t.initialVersion)) t.trees us = p
  obtain ⟨trees,_ | e⟩ := p
  · simp only [Prod.mk.injEq,and_true,exists_eq_left']
    constructor
    · rintro ⟨rfl,hnone⟩
      obtain ⟨hnodup,heq⟩ := (hindex trees _).mp (Prod.ext rfl hnone)
      exact ⟨hnodup,by simpa using heq⟩
    · rintro ⟨hnodup,rfl⟩
      rw [(hindex trees _).mpr ⟨hnodup,rfl⟩]
      exact ⟨rfl,rfl⟩
  · simp

theorem Indexed.applyUpgrades (ht : t.Indexed) (h : t.applyUpgrades us = (t',none)) :
    t'.Indexed := by
  by_cases hus : us = []
  · rw [MultiTree.applyUpgrades,if_pos hus] at h
    cases h
    exact ht
  · obtain ⟨trees,-,hnodup,rfl⟩ := (applyUpgrades_eq_ok hus).mp h
    exact ⟨KeyedList.strict_insertionSort hnodup,rfl⟩

/-- The pairs that a list of change sets has for a tree, in their order. -/
def pairsFor (name : Bytes) (css : List NamedChangeSet) : ChangeSet :=
  (css.filter (·.name = name)).flatMap NamedChangeSet.changeset

@[simp] theorem pairsFor_nil (name : Bytes) : pairsFor name [] = [] := rfl

theorem pairsFor_cons (name : Bytes) (cs : NamedChangeSet) (css : List NamedChangeSet) :
    pairsFor name (cs::css) = (if cs.name = name then cs.changeset else []) ++ pairsFor name css := by
  by_cases h : cs.name = name <;> simp [pairsFor,h]

/-- The trees after each got its pairs. -/
def withPairs (t : MultiTree) (pairs : Bytes → ChangeSet) : MultiTree :=
  { t with trees := t.trees.map fun e => { e with tree := e.tree.applyChangeSet (pairs e.name) } }

@[simp] theorem names_withPairs (t : MultiTree) (pairs : Bytes → ChangeSet) :
    (t.withPairs pairs).names = t.names := by
  simp [names,withPairs,Function.comp_def]

theorem Indexed.withPairs (ht : t.Indexed) (pairs : Bytes → ChangeSet) :
    (t.withPairs pairs).Indexed :=
  ht.congr (names_withPairs t pairs) rfl

theorem withPairs_withPairs (t : MultiTree) (pairs pairs' : Bytes → ChangeSet) :
    (t.withPairs pairs).withPairs pairs' = t.withPairs fun name => pairs name ++ pairs' name := by
  simp [withPairs,StoreTree.applyChangeSet_append]

@[simp] theorem withPairs_nil (t : MultiTree) : t.withPairs (fun _ => []) = t := by
  simp [withPairs]

theorem applyChangeSet_eq_ok (ht : t.Indexed) {name : Bytes} {cs : ChangeSet} :
    t.applyChangeSet name cs = (t',none) ↔
      name ∈ t.names ∧ t' = t.withPairs fun n => if name = n then cs else [] := by
  have hlookup : t.treesByName.lookup name = t.trees.findIdx? fun e => e.name = name := by
    rw [ht.index]
    exact (KeyedList.lookup_positions NamedTree.name 0 t.trees name).trans Option.map_id'
  unfold applyChangeSet
  rw [hlookup]
  cases hfind : t.trees.findIdx? fun e => e.name = name with
  | none =>
    have hnot : name ∉ t.names := by
      rw [findIdx?_eq_none_iff] at hfind
      intro hmem
      obtain ⟨e,he,heq⟩ := List.mem_map.mp hmem
      simpa [heq] using hfind e he
    simp [hnot]
  | some i =>
    have hmem : name ∈ t.names := by
      obtain ⟨hi,hname,-⟩ := findIdx?_eq_some_iff_getElem.mp hfind
      exact List.mem_map.mpr ⟨t.trees[i],getElem_mem hi,by simpa using hname⟩
    have honce := KeyedList.AtMostOne.of_nodup ht.strict.nodup name
    simp only [hmem,true_and,Prod.mk.injEq,and_true,KeyedList.modify_eq_map honce hfind]
    rw [eq_comm,withPairs]
    have hmap : (t.trees.map fun e => if e.name = name then
          { e with tree := e.tree.applyChangeSet cs } else e) =
        t.trees.map fun e =>
          { e with tree := e.tree.applyChangeSet (if name = e.name then cs else []) } := by
      refine map_congr_left fun e _ => ?_
      by_cases he : e.name = name
      · simp [he]
      · simp [he,Ne.symm he]
    rw [hmap]

theorem applyChangeSets_eq_ok (ht : t.Indexed) {css : List NamedChangeSet} :
    t.applyChangeSets css = (t',none) ↔
      (∀ cs ∈ css, cs.name ∈ t.names) ∧ t' = t.withPairs fun n => pairsFor n css := by
  induction css generalizing t with
  | nil => simp [applyChangeSets,eq_comm]
  | cons cs css ih =>
    rw [applyChangeSets,forall_mem_cons]
    rcases hcs : t.applyChangeSet cs.name cs.changeset with ⟨t₁,_ | e⟩
    · obtain ⟨hmem,rfl⟩ := (applyChangeSet_eq_ok ht).mp hcs
      simp only [ih (ht.withPairs _),names_withPairs,hmem,true_and,withPairs_withPairs,pairsFor_cons]
    · have hnot : cs.name ∉ t.names := by
        intro hmem
        rw [(applyChangeSet_eq_ok ht).mpr ⟨hmem,rfl⟩] at hcs
        cases hcs
      simp [hnot]

theorem saveTrees_eq_ok {trees' : List NamedTree} : saveTrees trees = (trees',none) ↔
    (∀ e ∈ trees, e.tree.version.toNat ≠ maxUint32) ∧
      trees' = trees.map fun e => { e with tree := { e.tree with version := e.tree.version+1 } } := by
  induction trees generalizing trees' with
  | nil => simp [saveTrees,eq_comm]
  | cons e es ih =>
    unfold saveTrees
    rw [forall_mem_cons,map_cons]
    cases hs : e.tree.saveVersion with
    | error err =>
      have hmax : ¬e.tree.version.toNat ≠ maxUint32 := fun hne => by
        rw [StoreTree.saveVersion_eq_ok.mpr ⟨hne,rfl⟩] at hs
        cases hs
      simp only [hmax,false_and,Prod.mk.injEq,reduceCtorEq,and_false]
    | ok tree =>
      obtain ⟨hne,rfl⟩ := StoreTree.saveVersion_eq_ok.mp hs
      simp only [Prod.mk.injEq]
      constructor
      · rintro ⟨rfl,hnone⟩
        obtain ⟨hall,heq⟩ := ih.mp (Prod.ext rfl hnone)
        exact ⟨⟨hne,hall⟩,congrArg _ heq⟩
      · rintro ⟨⟨-,hall⟩,rfl⟩
        rw [ih.mpr ⟨hall,rfl⟩]
        exact ⟨rfl,rfl⟩

def savedTrees (t : MultiTree) : List NamedTree :=
  t.trees.map fun e => { e with tree := { e.tree with version := e.tree.version+1 } }

theorem trees_saveVersion (h : t.saveVersion update = (t',.ok v)) :
    (∀ e ∈ t.trees, e.tree.version.toNat ≠ maxUint32) ∧
      t'.trees = t.savedTrees ∧ t'.treesByName = t.treesByName := by
  unfold saveVersion at h
  simp only at h
  split at h
  · cases h
  · rename_i trees hs
    obtain ⟨hall,rfl⟩ := saveTrees_eq_ok.mp hs
    cases h
    exact ⟨hall,by cases update <;> rfl,by cases update <;> rfl⟩

theorem exists_saveVersion (h : ∀ e ∈ t.trees, e.tree.version.toNat ≠ maxUint32) (update : Bool) :
    ∃ t' v, t.saveVersion update = (t',.ok v) := by
  unfold saveVersion
  simp only [saveTrees_eq_ok.mpr ⟨h,rfl⟩]
  exact ⟨_,_,rfl⟩

/-- Search trees in the order of their names. -/
structure Proper (t : MultiTree) : Prop where
  indexed : t.Indexed
  avl : ∀ e ∈ t.trees, e.tree.Avl

theorem Proper.congr (ht : t.Proper) (h : t.bare = t'.bare) : t'.Proper := by
  obtain ⟨-,htrees,hindex,-⟩ := bare_eq_iff.mp h
  refine ⟨⟨htrees ▸ ht.indexed.strict,?_⟩,htrees ▸ ht.avl⟩
  rw [← hindex,← htrees]
  exact ht.indexed.index

theorem Proper.applyUpgrades (ht : t.Proper) (h : t.applyUpgrades us = (t',none)) : t'.Proper := by
  refine ⟨ht.indexed.applyUpgrades h,?_⟩
  have hall := @forall_applyUpgrades StoreTree.Avl t us (by
    unfold StoreTree.newWithInitialVersion
    split <;> simp [StoreTree.Avl]) ht.avl
  rwa [h] at hall

theorem Proper.withPairs (ht : t.Proper) (pairs : Bytes → ChangeSet) :
    (t.withPairs pairs).Proper := by
  refine ⟨ht.indexed.withPairs pairs,?_⟩
  intro e he
  obtain ⟨e',he',rfl⟩ := List.mem_map.mp he
  exact (ht.avl e' he').applyChangeSet _

theorem applyWALEntry_eq_ok (ht : t.Proper) {entry : WALEntry} :
    t.applyWALEntry entry = (t',none) ↔ ∃ t₁, t.applyUpgrades entry.upgrades = (t₁,none) ∧
      t₁.Proper ∧ (∀ cs ∈ entry.changesets, cs.name ∈ t₁.names) ∧
      t' = t₁.withPairs fun n => pairsFor n entry.changesets := by
  unfold applyWALEntry
  rcases hu : t.applyUpgrades entry.upgrades with ⟨t₁,_ | e⟩
  · have ht₁ := ht.applyUpgrades hu
    simp [applyChangeSets_eq_ok ht₁.indexed,ht₁]
  · simp

theorem Proper.applyWALEntry (ht : t.Proper) {entry : WALEntry}
    (h : t.applyWALEntry entry = (t',none)) : t'.Proper := by
  obtain ⟨t₁,-,ht₁,-,rfl⟩ := (applyWALEntry_eq_ok ht).mp h
  exact ht₁.withPairs _

theorem Proper.saveVersion (ht : t.Proper) (h : t.saveVersion update = (t',.ok v)) : t'.Proper := by
  obtain ⟨-,htrees,hindex⟩ := trees_saveVersion h
  refine ⟨ht.indexed.congr ?_ hindex,?_⟩
  · simp [names,htrees,savedTrees,Function.comp_def]
  · rw [htrees]
    intro e he
    obtain ⟨e',he',rfl⟩ := List.mem_map.mp he
    exact ht.avl e' he'

/-- Every tree has been saved. -/
def Saved (t : MultiTree) : Prop := ∀ e ∈ t.trees, 0 < e.tree.version

theorem saved_saveVersion (h : t.saveVersion update = (t',.ok v)) : t'.Saved := by
  obtain ⟨hall,htrees,-⟩ := trees_saveVersion h
  rw [Saved,htrees]
  intro e he
  obtain ⟨e',he',rfl⟩ := List.mem_map.mp he
  exact StoreTree.version_pos_of_saveVersion (StoreTree.saveVersion_eq_ok.mpr ⟨hall e' he',rfl⟩)

theorem replay_eq_ok {e : WALEntry} : t.replay e = .ok t' ↔
    ∃ t₁ v, t.applyWALEntry e = (t₁,none) ∧ t₁.saveVersion false = (t',.ok v) := by
  unfold replay
  rcases t.applyWALEntry e with ⟨t₁,_ | err⟩
  · rcases hs : t₁.saveVersion false with ⟨t₂,err | v⟩
    · simp [hs]
    · simp [hs]
  · simp

theorem Proper.replay (ht : t.Proper) {e : WALEntry} (h : t.replay e = .ok t') :
    t'.Proper ∧ t'.Saved := by
  obtain ⟨t₁,v,ha,hs⟩ := replay_eq_ok.mp h
  exact ⟨(ht.applyWALEntry ha).saveVersion hs,saved_saveVersion hs⟩

end MultiTree
end Memiavl
