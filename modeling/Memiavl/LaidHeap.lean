import Memiavl.NodeRead

/-! Updates take over nodes of a snapshot only as they stand in its files. So every such node that
a tree in memory reaches is laid out as its writer left it. -/
namespace Memiavl

open MemNode

/-- A node in memory, or a node of a snapshot that is laid out. -/
def LaidNode : Node → Prop
  | .mem _ => True
  | .persisted p => ∃ t l b, p.Laid t l b

theorem laidNode_mem (a : ℕ) : LaidNode (.mem a) := trivial

/-- The children of a cell. -/
def LaidCell (c : MemNode) : Prop := (∀ n ∈ c.left, LaidNode n) ∧ ∀ n ∈ c.right, LaidNode n

theorem storedRoot_snapshot (s : Snapshot) (t : Persisted) (l b : ℕ) :
    (storedRoot s t l b).snapshot = s := by
  cases t <;> rfl

namespace PersistedNode

variable {p q : PersistedNode}

theorem Laid.children {t : Persisted} {l b : ℕ} (hp : p.Laid t l b) (hleaf : p.isLeaf = false) :
    ∃ left right pl pr, p.left = some pl ∧ p.right = some pr ∧ pl.Laid left l b ∧
      pr.Laid right (l+left.leafCount) (b+left.leafCount-1) := by
  obtain ⟨havl,hstored,hroot,hb,hwaiting,hleaves⟩ := hp
  cases t with
  | leaf key value i =>
    rw [hroot] at hleaf
    cases hleaf
  | branch height size key i left right =>
    obtain ⟨⟨hsl,hsr,-⟩,hbl,hbr,-,hsum,-⟩ := havl
    have hpos := leafCount_pos left
    have hsize : size = left.leafCount+right.leafCount := by rw [hsum,hbl.size_eq,hbr.size_eq]
    simp only [LeafTree.waiting] at hwaiting
    rw [LeafTree.leafCount] at hleaves
    have hleft := left_storedRoot hstored hsize hb (by omega) (by omega)
    have hright := right_storedRoot hstored hsize hb (by omega) (by omega)
    rw [← hroot] at hleft hright
    refine ⟨left,right,_,_,hleft,hright,⟨⟨hsl,hbl⟩,?_,?_,hb,by omega,by omega⟩,
      ⟨⟨hsr,hbr⟩,?_,?_,by omega,by omega,by omega⟩⟩ <;> rw [storedRoot_snapshot]
    · exact hstored.1
    · exact hstored.2.1

theorem laid_left (hp : LaidNode (.persisted p)) (hleaf : p.isLeaf = false) (hq : p.left = some q) :
    LaidNode (.persisted q) := by
  obtain ⟨t,l,b,hp⟩ := hp
  obtain ⟨left,-,pl,-,hleft,-,hl,-⟩ := hp.children hleaf
  obtain rfl := Option.some.inj (hleft.symm.trans hq)
  exact ⟨left,_,_,hl⟩

theorem laid_right (hp : LaidNode (.persisted p)) (hleaf : p.isLeaf = false)
    (hq : p.right = some q) : LaidNode (.persisted q) := by
  obtain ⟨t,l,b,hp⟩ := hp
  obtain ⟨left,right,-,pr,-,hright,-,hr⟩ := hp.children hleaf
  obtain rfl := Option.some.inj (hright.symm.trans hq)
  exact ⟨right,_,_,hr⟩

end PersistedNode

section
variable {n : Node} {version cowVersion : Version}

theorem maintains_left (hn : LaidNode n) : Maintains LaidCell n.left LaidNode := by
  cases n with
  | mem a => exact (Maintains.load a).bind fun c hc => .lift hc.1
  | persisted p =>
    refine .ite (fun _ => .fail) fun hleaf => ?_
    exact (Maintains.lift fun q hq => PersistedNode.laid_left hn (by simpa using hleaf) hq).bind
      fun q hq => .pure hq

theorem maintains_right (hn : LaidNode n) : Maintains LaidCell n.right LaidNode := by
  cases n with
  | mem a => exact (Maintains.load a).bind fun c hc => .lift hc.2
  | persisted p =>
    refine .ite (fun _ => .fail) fun hleaf => ?_
    exact (Maintains.lift fun q hq => PersistedNode.laid_right hn (by simpa using hleaf) hq).bind
      fun q hq => .pure hq

theorem maintains_height (n : Node) : Maintains LaidCell n.height fun _ => True := by
  cases n with
  | mem a => exact (Maintains.load a).bind fun _ _ => .pure trivial
  | persisted p => exact Maintains.lift_any.bind fun _ _ => .pure trivial

theorem maintains_size (n : Node) : Maintains LaidCell n.size fun _ => True := by
  cases n with
  | mem a => exact (Maintains.load a).bind fun _ _ => .pure trivial
  | persisted p => exact .lift_any

theorem maintains_key (n : Node) : Maintains LaidCell n.key fun _ => True := by
  cases n with
  | mem a => exact (Maintains.load a).bind fun _ _ => .pure trivial
  | persisted p => exact .lift_any

theorem maintains_isLeaf (n : Node) : Maintains LaidCell n.isLeaf fun _ => True := by
  cases n with
  | mem a => exact (Maintains.load a).bind fun _ _ => .pure trivial
  | persisted p => exact .pure trivial

theorem maintains_value (n : Node) : Maintains LaidCell n.value fun _ => True := by
  cases n with
  | mem a => exact (Maintains.load a).bind fun _ _ => .pure trivial
  | persisted p =>
    exact .ite (fun _ => Maintains.lift_any.bind fun _ _ => .pure trivial)
      fun _ => .pure trivial

theorem maintains_mutate (version cowVersion : Version) (hn : LaidNode n) :
    Maintains LaidCell (n.mutate version cowVersion) fun _ => True := by
  cases n with
  | mem a =>
    refine (Maintains.load a).bind fun c hc => .ite (fun _ => .alloc hc) fun _ => ?_
    exact Maintains.bind (.modify a fun _ hc => hc) fun _ _ => .pure trivial
  | persisted p =>
    refine .ite (fun _ => ?_) fun hleaf => ?_
    · exact Maintains.lift_any.bind fun e _ => .alloc (by simp [LaidCell])
    · have hleaf : p.isLeaf = false := by simpa using hleaf
      refine Maintains.lift_any.bind fun _ _ => ?_
      refine Maintains.lift_any.bind fun _ _ => ?_
      refine Maintains.lift_any.bind fun _ _ => ?_
      refine Maintains.bind (.lift fun q hq => PersistedNode.laid_left hn hleaf hq) fun l hl => ?_
      refine Maintains.bind (.lift fun q hq => PersistedNode.laid_right hn hleaf hq) fun r hr => ?_
      exact .alloc (by simpa [LaidCell] using ⟨hl,hr⟩)

theorem maintains_updateHeightSize (a : ℕ) :
    Maintains LaidCell (updateHeightSize a) fun _ => True := by
  refine (maintains_left (laidNode_mem a)).bind fun l _ => (maintains_right (laidNode_mem a)).bind fun r _ => ?_
  refine (maintains_height l).bind fun _ _ => (maintains_height r).bind fun _ _ => ?_
  refine Maintains.bind (.modify a fun _ hc => hc) fun _ _ => ?_
  refine (maintains_size l).bind fun _ _ => (maintains_size r).bind fun _ _ => ?_
  exact .modify a fun _ hc => hc

theorem maintains_calcBalance (hn : LaidNode n) :
    Maintains LaidCell (calcBalance n) fun _ => True := by
  refine (maintains_left hn).bind fun l _ => (maintains_right hn).bind fun r _ => ?_
  exact (maintains_height l).bind fun _ _ => (maintains_height r).bind fun _ _ => .pure trivial

theorem laidCell_setLeft {c : MemNode} {n : Node} (hn : LaidNode n) (hc : LaidCell c) :
    LaidCell { c with left := some n } := ⟨by simpa using hn,hc.2⟩

theorem laidCell_setRight {c : MemNode} {n : Node} (hn : LaidNode n) (hc : LaidCell c) :
    LaidCell { c with right := some n } := ⟨hc.1,by simpa using hn⟩

theorem maintains_rotateRight (a : ℕ) (version cowVersion : Version) :
    Maintains LaidCell (rotateRight a version cowVersion) fun _ => True := by
  refine (maintains_left (laidNode_mem a)).bind fun l hl => ?_
  refine (maintains_mutate version cowVersion hl).bind fun newSelf _ => ?_
  refine (maintains_right hl).bind fun lr hlr => ?_
  refine Maintains.bind (.modify a fun _ hc => laidCell_setLeft hlr hc) fun _ _ => ?_
  refine Maintains.bind (.modify newSelf fun _ hc => laidCell_setRight (laidNode_mem _) hc) fun _ _ => ?_
  refine (maintains_updateHeightSize a).bind fun _ _ => ?_
  exact (maintains_updateHeightSize newSelf).bind fun _ _ => .pure trivial

theorem maintains_rotateLeft (a : ℕ) (version cowVersion : Version) :
    Maintains LaidCell (rotateLeft a version cowVersion) fun _ => True := by
  refine (maintains_right (laidNode_mem a)).bind fun r hr => ?_
  refine (maintains_mutate version cowVersion hr).bind fun newSelf _ => ?_
  refine (maintains_left hr).bind fun rl hrl => ?_
  refine Maintains.bind (.modify a fun _ hc => laidCell_setRight hrl hc) fun _ _ => ?_
  refine Maintains.bind (.modify newSelf fun _ hc => laidCell_setLeft (laidNode_mem _) hc) fun _ _ => ?_
  refine (maintains_updateHeightSize a).bind fun _ _ => ?_
  exact (maintains_updateHeightSize newSelf).bind fun _ _ => .pure trivial

theorem maintains_reBalance (a : ℕ) (version cowVersion : Version) :
    Maintains LaidCell (reBalance a version cowVersion) fun _ => True := by
  refine (maintains_calcBalance (laidNode_mem a)).bind fun _ _ => .ite (fun _ => ?_) fun _ =>
    .ite (fun _ => ?_) fun _ => .pure trivial
  · refine (maintains_left (laidNode_mem a)).bind fun l hl => ?_
    refine (maintains_calcBalance hl).bind fun _ _ => .ite (fun _ => maintains_rotateRight _ _ _) fun _ => ?_
    refine (maintains_mutate version cowVersion hl).bind fun _ _ => ?_
    refine (maintains_rotateLeft _ _ _).bind fun _ _ => ?_
    refine Maintains.bind (.modify a fun _ hc => laidCell_setLeft (laidNode_mem _) hc) fun _ _ => ?_
    exact maintains_rotateRight _ _ _
  · refine (maintains_right (laidNode_mem a)).bind fun r hr => ?_
    refine (maintains_calcBalance hr).bind fun _ _ => .ite (fun _ => maintains_rotateLeft _ _ _) fun _ => ?_
    refine (maintains_mutate version cowVersion hr).bind fun _ _ => ?_
    refine (maintains_rotateRight _ _ _).bind fun _ _ => ?_
    refine Maintains.bind (.modify a fun _ hc => laidCell_setRight (laidNode_mem _) hc) fun _ _ => ?_
    exact maintains_rotateLeft _ _ _

/-- The last part of an update of a branch. -/
theorem maintains_updated {α : Type} {f : ℕ → HeapM MemNode α} {Q : α → Prop} (a : ℕ)
    (hf : ∀ b, Maintains LaidCell (f b) Q) :
    Maintains LaidCell (do updateHeightSize a; let b ← reBalance a version cowVersion; f b) Q :=
  (maintains_updateHeightSize a).bind fun _ _ =>
    (maintains_reBalance a version cowVersion).bind fun b _ => hf b

theorem maintains_setRecursive (key value : Bytes) (version cowVersion : Version) (fuel : ℕ) :
    ∀ root : Option Node, (∀ n ∈ root, LaidNode n) →
      Maintains LaidCell (setRecursive key value version cowVersion fuel root) fun _ => True := by
  induction fuel with
  | zero => exact fun _ _ => .fail
  | succ fuel ih =>
    rintro (_ | node) hroot
    · exact Maintains.bind (.alloc (by simp [LaidCell,newLeafNode])) fun _ _ => .pure trivial
    · have hnode : LaidNode node := hroot node rfl
      rw [setRecursive]
      refine (maintains_key node).bind fun nodeKey _ => (maintains_isLeaf node).bind fun isLeaf _ =>
        .ite (fun _ => .ite (fun _ => ?_) fun _ => .ite (fun _ => ?_) fun _ => ?_) fun _ =>
          .ite (fun _ => ?_) fun _ => ?_
      · refine Maintains.bind (.alloc (by simp [LaidCell,newLeafNode])) fun leaf _ => ?_
        exact Maintains.bind (.alloc (by simpa [LaidCell,laidNode_mem] using hnode)) fun _ _ =>
          .pure trivial
      · refine Maintains.bind (.alloc (by simp [LaidCell,newLeafNode])) fun leaf _ => ?_
        exact Maintains.bind (.alloc (by simpa [LaidCell,laidNode_mem] using hnode)) fun _ _ =>
          .pure trivial
      · refine (maintains_mutate version cowVersion hnode).bind fun a _ => ?_
        exact Maintains.bind (.modify a fun _ hc => hc) fun _ _ => .pure trivial
      · refine (maintains_left hnode).bind fun child hchild => ?_
        refine (ih (some child) (by simpa using hchild)).bind fun _ _ => ?_
        refine (maintains_mutate version cowVersion hnode).bind fun a _ => ?_
        refine Maintains.bind (.modify a fun _ hc => laidCell_setLeft (laidNode_mem _) hc)
          fun _ _ => .ite (fun _ => .pure trivial) fun _ => ?_
        exact maintains_updated a fun _ => .pure trivial
      · refine (maintains_right hnode).bind fun child hchild => ?_
        refine (ih (some child) (by simpa using hchild)).bind fun _ _ => ?_
        refine (maintains_mutate version cowVersion hnode).bind fun a _ => ?_
        refine Maintains.bind (.modify a fun _ hc => laidCell_setRight (laidNode_mem _) hc)
          fun _ _ => .ite (fun _ => .pure trivial) fun _ => ?_
        exact maintains_updated a fun _ => .pure trivial

theorem maintains_removeRecursive (key : Bytes) (version cowVersion : Version) (fuel : ℕ) :
    ∀ root : Option Node, (∀ n ∈ root, LaidNode n) →
      Maintains LaidCell (removeRecursive key version cowVersion fuel root)
        fun r => ∀ n ∈ r.2.1, LaidNode n := by
  induction fuel with
  | zero => exact fun _ _ => .fail
  | succ fuel ih =>
    rintro (_ | node) hroot
    · exact .pure (by simp)
    · have hnode : LaidNode node := hroot node rfl
      rw [removeRecursive]
      refine (maintains_key node).bind fun nodeKey _ => (maintains_isLeaf node).bind fun isLeaf _ =>
        .ite (fun _ => .ite (fun _ => ?_) fun _ => ?_) fun _ => .ite (fun _ => ?_) fun _ => ?_
      · exact (maintains_value node).bind fun _ _ => .pure (by simp)
      · exact .pure (by simpa using hnode)
      · refine (maintains_left hnode).bind fun child hchild => ?_
        refine (ih (some child) (by simpa using hchild)).bind fun r hr => ?_
        obtain ⟨removed,newLeft,newKey⟩ := r
        refine .ite (fun _ => .pure (by simpa using hnode)) fun _ => ?_
        cases newLeft with
        | none => exact (maintains_right hnode).bind fun right hright => .pure (by simpa using hright)
        | some newLeft =>
          refine (maintains_mutate version cowVersion hnode).bind fun a _ => ?_
          refine Maintains.bind (.modify a fun _ hc => laidCell_setLeft (hr newLeft rfl) hc)
            fun _ _ => ?_
          exact maintains_updated a fun b => .pure (by simpa using laidNode_mem b)
      · refine (maintains_right hnode).bind fun child hchild => ?_
        refine (ih (some child) (by simpa using hchild)).bind fun r hr => ?_
        obtain ⟨removed,newRight,newKey⟩ := r
        refine .ite (fun _ => .pure (by simpa using hnode)) fun _ => ?_
        cases newRight with
        | none => exact (maintains_left hnode).bind fun left hleft => .pure (by simpa using hleft)
        | some newRight =>
          refine (maintains_mutate version cowVersion hnode).bind fun a _ => ?_
          refine Maintains.bind
            (.modify a fun _ hc => ⟨hc.1,by simpa using hr newRight rfl⟩) fun _ _ => ?_
          exact maintains_updated a fun b => .pure (by simpa using laidNode_mem b)

theorem maintains_hash (fuel : ℕ) :
    ∀ n : Node, Maintains LaidCell (n.hash fuel) fun _ => True := by
  induction fuel with
  | zero => exact fun n => .fail
  | succ fuel ih =>
    rintro (a | p)
    · refine (Maintains.load a).bind fun c hc => ?_
      cases c.hash with
      | some d => exact .pure trivial
      | none =>
        refine .ite (fun _ => ?_) fun _ => ?_
        · exact Maintains.bind (.modify a fun _ hc => hc) fun _ _ => .pure trivial
        · refine Maintains.lift_any.bind fun left _ => ?_
          refine Maintains.lift_any.bind fun right _ => ?_
          refine (ih left).bind fun _ _ => (ih right).bind fun _ _ => ?_
          exact Maintains.bind (.modify a fun _ hc => hc) fun _ _ => .pure trivial
    · exact .lift_any

/-- The root of the tree is laid out. -/
def Tree.Laid (t : Tree) : Prop := ∀ n ∈ t.root, LaidNode n

theorem maintains_fuel (t : Tree) : Maintains LaidCell t.fuel fun _ => True := by
  unfold Tree.fuel
  cases t.root with
  | none => exact .pure trivial
  | some n => exact (maintains_height n).bind fun _ _ => .pure trivial

theorem maintains_set {t : Tree} (ht : t.Laid) (key : Bytes) (value : Option Bytes) :
    Maintains LaidCell (t.set key value) Tree.Laid := by
  refine (maintains_fuel t).bind fun fuel _ => ?_
  refine (maintains_setRecursive key _ _ _ fuel t.root ht).bind fun r _ => .pure ?_
  simp [Tree.Laid,laidNode_mem]

theorem maintains_remove {t : Tree} (ht : t.Laid) (key : Bytes) :
    Maintains LaidCell (t.remove key) fun r => r.2.Laid := by
  refine (maintains_fuel t).bind fun fuel _ => ?_
  exact (maintains_removeRecursive key _ _ fuel t.root ht).bind fun r hr => .pure hr

theorem maintains_rootHash (t : Tree) : Maintains LaidCell t.rootHash fun _ => True := by
  refine (maintains_fuel t).bind fun fuel _ => ?_
  cases t.root with
  | none => exact .pure trivial
  | some n => exact maintains_hash fuel n

theorem maintains_saveVersion {t : Tree} (ht : t.Laid) (updateHash : Bool) :
    Maintains LaidCell (t.saveVersion updateHash) fun r => ∀ x, r = .ok x → x.2.Laid := by
  have hnext : ∀ hash, Maintains LaidCell
      (pure (.ok (hash,{ t with version := t.version+1 })) : HeapM MemNode _)
      fun r : Except String (Option Digest × Tree) => ∀ x, r = .ok x → x.2.Laid := by
    refine fun hash => .pure ?_
    rintro x ⟨rfl⟩
    exact ht
  refine .ite (fun _ => .pure (by simp)) fun _ => .ite (fun _ => ?_) fun _ => ?_
  · refine (maintains_rootHash t).bind fun d _ => ?_
    exact Maintains.bind (.pure (Q := fun _ => True) trivial) fun hash _ => hnext hash
  · exact Maintains.bind (.pure (Q := fun _ => True) trivial) fun hash _ => hnext hash

end

/-- A tree in such a heap stands for what its snapshots hold where they are laid out. -/
theorem lays_of_rep {h : Heap} (hh : h.All LaidCell) {n : Node} {t : Mixed} {F : Finset ℕ}
    (hrep : Rep h n t F) (hn : LaidNode n) : Lays h n t := by
  induction t generalizing n F with
  | leaf key value s =>
    cases n with
    | mem a => exact hrep.1
    | persisted p =>
      obtain ⟨u,l,b,hp⟩ := hn
      exact ⟨u,l,b,hp,(hrep.unique (hp.rep h)).1⟩
  | branch height size key s left right ihl ihr =>
    cases n with
    | mem a =>
      obtain ⟨l,r,Fl,Fr,hbranch,hl,hr,-⟩ := hrep
      obtain ⟨c,hc,-,-,-,-,hcl,hcr,-⟩ := id hbranch
      obtain ⟨hleft,hright⟩ := hh a c hc
      exact ⟨l,r,hbranch,ihl hl (hleft l hcl),ihr hr (hright r hcr)⟩
    | persisted p =>
      obtain ⟨u,l,b,hp⟩ := hn
      exact ⟨u,l,b,hp,(hrep.unique (hp.rep h)).1⟩

/-- The snapshot is empty, or its root is laid out from the start of the files. -/
def Snapshot.LaidOut (s : Snapshot) (root : Option Persisted) : Prop :=
  match s.rootNode, root with
  | none, none => True
  | some p, some t => p.Laid t 0 0
  | _, _ => False

/-- What `OpenSnapshot` makes of files from `WriteSnapshot`. -/
theorem laidOut_openSnapshot (version : Version) (root : Option Persisted)
    (havl : ∀ t ∈ root, t.Avl) (hcount : ∀ t ∈ root, t.leafCount < 2^32)
    (hshort : ∀ t ∈ root, ShortEntries t) (hkvs : ∀ t ∈ root, kvsLength t < 2^64) :
    ∃ s, openSnapshot (writeSnapshot version root) = .ok s ∧ s.LaidOut root := by
  cases root with
  | none => exact ⟨_,openSnapshot_empty version,trivial⟩
  | some t =>
    have ht := havl t rfl
    have hn := hcount t rfl
    refine ⟨_,openSnapshot_writeSnapshot hn version,?_⟩
    have hheight : t.height < 256 := heightFits ht.balanced (hn.trans (by norm_num))
    have hdepth := ht.balanced.measured.depth_eq
    have hwaiting := t.waiting_le_depth
    obtain ⟨-,hstored⟩ := SnapshotWriter.writeRecursive_stored SnapshotWriter.at_start le_rfl
      (by simpa using hn) (hshort t rfl) (by simpa using hkvs t rfl) (writtenIn_snapshotOf version t)
    simp only [Snapshot.LaidOut,rootNode_snapshotOf]
    refine ⟨ht,?_,?_,le_rfl,by omega,by omega⟩
    · rwa [storedRoot_snapshot]
    · rw [storedRoot_snapshot]

end Memiavl
