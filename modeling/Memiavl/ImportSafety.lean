import Memiavl.ImportTree

/-! Restoring from arbitrary data. The importer checks neither the order of the keys nor the
heights, and it relies on a store header before the nodes and on two pending nodes before each
branch. -/
namespace Memiavl

open LeafTree

/-- Files that are opened and hold one tree, with all the leaves in the files, whose keys are
sorted and whose sizes and heights are right. -/
def TreeFiles.Sound (f : TreeFiles) : Prop :=
  ∃ s root, openSnapshot f = .ok s ∧ s.tree = some root ∧
    f.leaves.length = SizeLeaf*(root.elim 0 leafCount) ∧
    ∀ t ∈ root, t.keys.Pairwise (· < ·) ∧ t.Exact ∧ t.Measured

def SnapshotDir.Sound (dir : SnapshotDir) : Prop := ∀ f ∈ dir.trees, f.2.Sound

/-- A restore that does not panic and that makes a sound snapshot when it returns no error. -/
def Disk.RestoresSafely (d : Disk) (height : ℕ) (items : List SnapshotItem) : Prop :=
  d.restore height items ≠ .panic ∧ ∀ item d', d.restore height items = .ok (item,d') →
    ∃ dir, d'.snapshots.lookup height = some dir ∧ dir.Sound

namespace Stream

/-- Stores with sorted keys and right heights. -/
def Ordered (stores : List (Bytes × Option Contents)) : Prop :=
  ∀ p ∈ stores, ∀ t ∈ p.2, t.keys.Pairwise (· < ·) ∧ t.Measured

instance (stores : List (Bytes × Option Contents)) : Decidable (Ordered stores) := by
  unfold Ordered
  infer_instance

instance (height : ℕ) (stores : List (Bytes × Option Contents)) :
    Decidable (Storable height stores) := by
  unfold Storable
  infer_instance

variable {stores : List (Bytes × Option Contents)}

/-- What every described tree has. -/
def Shaped (stores : List (Bytes × Option Contents)) : Prop :=
  ∀ p ∈ stores, ∀ t ∈ p.2, t.Exact ∧ t.Every fun u => u.height < 256

theorem Shaped.put (h : Shaped stores) {name : Bytes} {nodes : List ExportNode}
    {root : Option Contents} (hroot : buildRoot nodes = .ok root) :
    Shaped (putFiles name root stores) := by
  intro p hp t ht
  rcases List.mem_append.mp hp with hp | hp
  · exact h p (List.mem_of_mem_filter hp) t ht
  · obtain rfl := List.mem_singleton.mp hp
    simp only [Option.mem_def] at ht
    subst ht
    obtain ⟨hexact,-,hheights⟩ := buildRoot_spec hroot
    exact ⟨hexact,hheights⟩

theorem shaped_close {s s' : Stream} (hs : ∀ stores ∈ s.stores, Shaped stores)
    (h : s.close = .ok s') : ∀ stores ∈ s'.stores, Shaped stores := by
  obtain ⟨stores,_ | ⟨name,nodes⟩⟩ := s
  · cases h
    exact hs
  · unfold close at h
    cases hroot : buildRoot nodes with
    | error err => simp [hroot] at h
    | panic => simp [hroot] at h
    | ok root =>
      simp only [hroot,Outcome.map_ok,Outcome.ok.injEq] at h
      subst h
      rintro _ ⟨⟩
      refine Shaped.put ?_ hroot
      cases stores with
      | none => exact fun p hp => absurd hp (by simp)
      | some stores => exact hs stores rfl

theorem fail_ne_ok {α : Type} (s : Stream) (err : String) (a : α) : s.fail err ≠ .ok a := by
  unfold fail
  split <;> simp

theorem shaped_read {s s' : Stream} {items : List SnapshotItem} {item : Option SnapshotItem}
    (hs : ∀ stores ∈ s.stores, Shaped stores) (h : s.read items = .ok (item,s')) :
    ∀ stores ∈ s'.stores, Shaped stores := by
  induction items generalizing s with
  | nil =>
    cases h
    exact hs
  | cons x items ih =>
    cases x with
    | store name =>
      rw [read] at h
      cases hclose : s.close with
      | error err => simp [hclose] at h
      | panic => simp [hclose] at h
      | ok s₁ =>
        rw [hclose,Outcome.bind_ok] at h
        have hs₁ := shaped_close hs hclose
        refine ih ?_ h
        exact hs₁
    | iavl key value version height =>
      rw [read] at h
      split at h
      · exact (fail_ne_ok _ _ _ h).elim
      · split at h
        · cases h
        · refine ih ?_ h
          exact hs
    | extension =>
      cases h
      exact hs
    | invalid err => exact (fail_ne_ok _ _ _ h).elim

theorem shaped_describe {left : Option (List (Bytes × Option Contents))}
    {items : List SnapshotItem} (hleft : ∀ stores ∈ left, Shaped stores)
    (h : describe left items = .ok (some stores)) : Shaped stores := by
  unfold describe at h
  cases hread : read ⟨left,none⟩ items with
  | error err => simp [hread] at h
  | panic => simp [hread] at h
  | ok r =>
    obtain ⟨item,s⟩ := r
    rw [hread,Outcome.bind_ok] at h
    simp only at h
    cases hclose : s.close with
    | error err => simp [hclose] at h
    | panic => simp [hclose] at h
    | ok s' =>
      simp only [hclose,Outcome.map_ok,Outcome.ok.injEq] at h
      exact shaped_close (shaped_read hleft hread) hclose stores h

end Stream

namespace StoreTree

theorem length_leaves_writeTree {v : Version} {t : Contents} (hcount : t.leafCount < 2^32) :
    (writeTree ⟨v,some t⟩).leaves.length = SizeLeaf*t.leafCount := by
  have hat := SnapshotWriter.at_start.writeRecursive (Contents.hashed t)
  rw [Importer.leafCount_hashed,Nat.zero_add] at hat
  have hcounter : (SnapshotWriter.writeRecursive {} (Contents.hashed t)).leafCounter > 0 := by
    rw [hat.leafCounter,gt_iff_lt,UInt32.lt_iff_toNat_lt,UInt32.toNat_ofNat',Nat.mod_eq_of_lt hcount]
    exact leafCount_pos t
  simp only [writeTree,Option.map_some,writeSnapshot,if_pos hcounter,hat.leaves]
  exact Nat.mul_comm ..

variable {v : Version} {t : Contents}

section
variable (hs : Storable ⟨v,some t⟩) (hexact : t.Exact) (hheights : t.Every fun u => u.height < 256)
include hs hexact hheights

/-- A described tree is read back when it is not too deep. -/
theorem tree_hashed :
    (snapshotOf v (Contents.hashed t)).tree =
      if (Contents.hashed t).depth < 256 then some (some (Contents.hashed t)) else none := by
  obtain ⟨hcount,hshort,hkvs⟩ := hs (Contents.hashed t) rfl
  rw [← Contents.mapAnn_hashed t] at hexact hheights
  refine tree_snapshotOf_eq v ?_ ?_ hcount hshort hkvs
  · exact (exact_mapAnn ..).mp hexact
  · exact (every_height_mapAnn NodeInfo.version _ (· < 256)).mp hheights

/-- The files of a described tree are sound when its keys are sorted and its heights are
right. -/
theorem sound_writeTree_iff : (writeTree ⟨v,some t⟩).Sound ↔ t.keys.Pairwise (· < ·) ∧ t.Measured := by
  have hcount := (hs (Contents.hashed t) rfl).1
  have hopen : openSnapshot (writeTree ⟨v,some t⟩) = .ok (snapshotOf v (Contents.hashed t)) :=
    openSnapshot_writeSnapshot hcount v
  have htree := tree_hashed hs hexact hheights
  have hsame := Contents.mapAnn_hashed t
  constructor
  · rintro ⟨s,root,hs,hroot,-,hsound⟩
    obtain rfl : snapshotOf v (Contents.hashed t) = s := Except.ok.inj (hopen.symm.trans hs)
    rw [htree] at hroot
    split at hroot
    · cases hroot
      obtain ⟨hkeys,-,hm⟩ := hsound (Contents.hashed t) rfl
      rw [← hsame,keys_mapAnn,measured_mapAnn]
      exact ⟨hkeys,hm⟩
    · cases hroot
  · rintro ⟨hkeys,hm⟩
    rw [← hsame,keys_mapAnn] at hkeys
    rw [← hsame,measured_mapAnn] at hm
    rw [← hsame,exact_mapAnn] at hexact
    rw [← hsame,every_height_mapAnn NodeInfo.version _ (· < 256)] at hheights
    have hdepth : (Contents.hashed t).depth < 256 := by
      rw [hm.depth_eq]
      generalize Contents.hashed t = u at hheights
      cases u with
      | leaf k a i => exact hheights
      | branch h n k i l r => exact hheights.1
    rw [if_pos hdepth] at htree
    refine ⟨_,_,hopen,htree,?_,?_⟩
    · rw [length_leaves_writeTree (by rwa [Importer.leafCount_hashed] at hcount)]
      simp
    · rintro _ ⟨⟩
      exact ⟨hkeys,hexact,hm⟩

end

theorem sound_writeTree_none (v : Version) : (writeTree ⟨v,none⟩).Sound :=
  ⟨_,none,openSnapshot_empty v,rfl,rfl,by simp⟩

end StoreTree

/-- The files of described stores are sound when the stores are ordered. -/
theorem Stream.sound_files_iff {height : ℕ} {stores : List (Bytes × Option Contents)}
    (hshape : Shaped stores) (hs : Storable height stores) :
    (∀ f ∈ files height stores, f.2.Sound) ↔ Ordered stores := by
  have heach : ∀ p ∈ stores, (StoreTree.writeTree ⟨.ofNat height,p.2⟩).Sound ↔
      ∀ t ∈ p.2, t.keys.Pairwise (· < ·) ∧ t.Measured := by
    rintro ⟨name,_ | t⟩ hp
    · simp [StoreTree.sound_writeTree_none]
    · obtain ⟨hexact,hheights⟩ := hshape _ hp t rfl
      simp only [Option.mem_some_iff,forall_eq']
      exact StoreTree.sound_writeTree_iff (hs _ hp) hexact hheights
  constructor
  · intro h p hp
    exact (heach p hp).mp (h _ (List.mem_map_of_mem hp))
  · intro h f hf
    obtain ⟨p,hp,rfl⟩ := List.mem_map.mp hf
    exact (heach p hp).mpr (h p hp)

namespace Disk

section
variable {d : Disk} {height : ℕ} {items : List SnapshotItem}
  {left : Option (List (Bytes × Option Contents))} (hh : height ≤ maxUint32)
  (hleft : (d.tmpDirs.lookup height).map SnapshotDir.trees = left.map (Stream.files height))
  (hfit : ∀ stores, Stream.describe left items = .ok (some stores) → Stream.Storable height stores)
include hh hleft hfit

theorem restore_eq_panic_iff :
    d.restore height items = .panic ↔ Stream.describe left items = .panic := by
  have h := restore_eq hh hleft items
  cases hdesc : Stream.describe left items with
  | error err | panic =>
    rw [hdesc] at h
    cases hr : d.restore height items <;> simp_all
  | ok stores =>
    have hne : (d.restore height items).map Prod.snd ≠ .panic := by
      rw [h,hdesc]
      cases stores with
      | none => simp
      | some stores =>
        rw [Outcome.bind_ok]
        simp only
        rw [Stream.updateMetadataFile_files (hfit stores hdesc),Outcome.bind_ok,install]
        split_ifs <;> simp
    cases hr : d.restore height items <;> simp_all

/-- A restore that returns no error has made a snapshot of the described stores. -/
theorem restore_eq_ok {item : Option SnapshotItem} {d' : Disk}
    (h : d.restore height items = .ok (item,d')) :
    ∃ stores, Stream.describe left items = .ok (some stores) ∧
      d.install height ⟨Stream.files height stores,Stream.metadata height stores⟩ = .ok d' := by
  have heq := restore_eq hh hleft items
  rw [h] at heq
  cases hdesc : Stream.describe left items with
  | error err => simp [hdesc] at heq
  | panic => simp [hdesc] at heq
  | ok stores =>
    rw [hdesc] at heq
    cases stores with
    | none => simp at heq
    | some stores =>
      refine ⟨stores,rfl,?_⟩
      simpa [Stream.updateMetadataFile_files (hfit stores hdesc)] using heq.symm

theorem restore_of_describe {stores : List (Bytes × Option Contents)}
    (hdesc : Stream.describe left items = .ok (some stores)) (hnew : height ∉ d.versions)
    (hlink : d.currentTmp = none) : ∃ item d', d.restore height items = .ok (item,d') ∧
      d'.snapshots.lookup height =
        some ⟨Stream.files height stores,Stream.metadata height stores⟩ := by
  have h := restore_eq hh hleft items
  rw [hdesc,Outcome.bind_ok] at h
  simp only at h
  rw [Stream.updateMetadataFile_files (hfit stores hdesc),Outcome.bind_ok,install,if_neg hnew,
    if_neg (by simp [hlink])] at h
  cases hr : d.restore height items with
  | error err => simp [hr] at h
  | panic => simp [hr] at h
  | ok r =>
    obtain ⟨item,d'⟩ := r
    rw [hr,Outcome.map_ok,Outcome.ok.injEq] at h
    subst h
    exact ⟨item,_,rfl,lookup_putDir ..⟩

end

theorem install_eq_ok {d d' : Disk} {height : ℕ} {dir : SnapshotDir}
    (h : d.install height dir = .ok d') :
    height ∉ d.versions ∧ d.currentTmp = none ∧ d'.snapshots.lookup height = some dir := by
  unfold install at h
  split_ifs at h with hnew hlink
  cases h
  exact ⟨hnew,by simpa using hlink,lookup_putDir ..⟩

/-- Stores that are not ordered make a snapshot that is not sound. -/
theorem restore_unsound {d : Disk} {height : ℕ} {items : List SnapshotItem}
    {left : Option (List (Bytes × Option Contents))} {stores : List (Bytes × Option Contents)}
    (hh : height ≤ maxUint32)
    (hleft : (d.tmpDirs.lookup height).map SnapshotDir.trees = left.map (Stream.files height))
    (hshaped : ∀ stores ∈ left, Stream.Shaped stores)
    (hdesc : Stream.describe left items = .ok (some stores)) (hs : Stream.Storable height stores)
    (hnew : height ∉ d.versions) (hlink : d.currentTmp = none) (hnot : ¬Stream.Ordered stores) :
    ∃ item d' dir, d.restore height items = .ok (item,d') ∧
      d'.snapshots.lookup height = some dir ∧ ¬dir.Sound := by
  have hfit : ∀ stores, Stream.describe left items = .ok (some stores) →
      Stream.Storable height stores := by
    rintro _ h
    cases hdesc.symm.trans h
    exact hs
  obtain ⟨item,d',hr,hdir⟩ := restore_of_describe hh hleft hfit hdesc hnew hlink
  refine ⟨item,d',_,hr,hdir,fun hsound => hnot ?_⟩
  exact (Stream.sound_files_iff (Stream.shaped_describe hshaped hdesc) hs).mp hsound

def twoLeaves (first second : Bytes) (height : ℤ) : List SnapshotItem :=
  [.store [97],.iavl first [1] 1 0,.iavl second [2] 1 0,.iavl second [] 1 height]

def twoLeavesStore (first second : Bytes) (height : ℕ) : List (Bytes × Option Contents) :=
  [([97],some (.branch height 2 second 1 (.leaf first [1] 1) (.leaf second [2] 1)))]

end Disk

end Memiavl
