import Memiavl.TreeSafety
import Memiavl.SnapshotRoundTrip

/-! A tree as the stores of a database use it: its version and its nodes. Trees that share
a heap behave like such values (`World.value_call`), and so do the trees that are
written to the files of a snapshot and read again (`load_writeTree`). -/
namespace Memiavl

open Option

structure KVPair where
  delete : Bool := false
  key : Bytes
  value : Bytes := []
  deriving DecidableEq

abbrev ChangeSet := List KVPair

/-- A pair with the name of its store. -/
structure StoreKVPair where
  storeKey : Bytes
  delete : Bool := false
  key : Bytes
  value : Bytes := []
  deriving DecidableEq

structure StoreTree where
  version : Version
  root : Option Contents := none
  deriving DecidableEq

namespace StoreTree

def newWithInitialVersion (initialVersion : UInt32) : StoreTree :=
  if initialVersion ≤ 1 then ⟨0,none⟩ else ⟨initialVersion-1,none⟩

def isEmpty (t : StoreTree) : Bool := t.root.isNone

/-- `setInitialVersion`, without effect on a tree that has a version already. -/
def setInitialVersion (t : StoreTree) (initialVersion : UInt32) : StoreTree :=
  if t.version > 0 then t
  else { t with version := if initialVersion < 1 then 0 else initialVersion-1 }

def set (t : StoreTree) (key value : Bytes) : StoreTree :=
  match t.root with
  | none => { t with root := some (.leaf key value (t.version+1)) }
  | some r => { t with root := some (r.insert key value (t.version+1)).1 }

def remove (t : StoreTree) (key : Bytes) : StoreTree :=
  match t.root with
  | none => t
  | some r =>
    match r.erase key (t.version+1) with
    | .missing => t
    | .gone _ => { t with root := none }
    | .found _ u _ => { t with root := some u }

def applyPair (t : StoreTree) (pair : KVPair) : StoreTree :=
  if pair.delete then t.remove pair.key else t.set pair.key pair.value

def applyChangeSet (t : StoreTree) (changeSet : ChangeSet) : StoreTree :=
  changeSet.foldl applyPair t

/-- `SaveVersion`; the hash that it can return is left to `rootHash`. -/
def saveVersion (t : StoreTree) : Except String StoreTree :=
  if t.version.toNat = maxUint32 then .error s!"version overflows uint32: {t.version}"
  else .ok { t with version := t.version+1 }

def rootHash (t : StoreTree) : Digest := Memiavl.rootHash t.root

variable {t t' : StoreTree}

theorem saveVersion_eq_ok : t.saveVersion = .ok t' ↔
    t.version.toNat ≠ maxUint32 ∧ t' = { t with version := t.version+1 } := by
  unfold saveVersion
  split <;> simp_all [eq_comm]

theorem version_pos_of_saveVersion (h : t.saveVersion = .ok t') : 0 < t'.version := by
  obtain ⟨hmax,rfl⟩ := saveVersion_eq_ok.mp h
  rw [UInt32.lt_iff_toNat_lt,TreeState.toNat_next hmax]
  simp

@[simp] theorem version_set (t : StoreTree) (key value : Bytes) :
    (t.set key value).version = t.version := by
  unfold set
  split <;> rfl

@[simp] theorem version_remove (t : StoreTree) (key : Bytes) :
    (t.remove key).version = t.version := by
  unfold remove
  split
  · rfl
  · split <;> rfl

@[simp] theorem version_applyPair (t : StoreTree) (pair : KVPair) :
    (t.applyPair pair).version = t.version := by
  unfold applyPair
  split <;> simp

@[simp] theorem version_applyChangeSet (t : StoreTree) (cs : ChangeSet) :
    (t.applyChangeSet cs).version = t.version := by
  induction cs generalizing t with
  | nil => rfl
  | cons p cs ih => exact (ih _).trans (version_applyPair t p)

@[simp] theorem applyChangeSet_nil (t : StoreTree) : t.applyChangeSet [] = t := rfl

theorem applyChangeSet_append (t : StoreTree) (cs cs' : ChangeSet) :
    t.applyChangeSet (cs ++ cs') = (t.applyChangeSet cs).applyChangeSet cs' :=
  List.foldl_append

@[simp] theorem setInitialVersion_of_pos (h : 0 < t.version) (initialVersion : UInt32) :
    t.setInitialVersion initialVersion = t := if_pos h

def Avl (t : StoreTree) : Prop := ∀ r ∈ t.root, r.Avl

theorem Avl.set (ht : t.Avl) (key value : Bytes) : (t.set key value).Avl := by
  intro r hr
  unfold StoreTree.set at hr
  split at hr
  · cases hr
    exact ⟨LeafTree.search_leaf ..,LeafTree.balanced_leaf ..⟩
  · rename_i r' hroot
    cases hr
    exact (ht r' hroot).insert key value _

theorem Avl.remove (ht : t.Avl) (key : Bytes) : (t.remove key).Avl := by
  intro r hr
  unfold StoreTree.remove at hr
  split at hr
  · exact ht r hr
  · rename_i r' hroot
    split at hr
    · exact ht r hr
    · cases hr
    · rename_i he
      cases hr
      exact (ht r' hroot).erase he

theorem Avl.applyChangeSet (ht : t.Avl) (cs : ChangeSet) : (t.applyChangeSet cs).Avl := by
  induction cs generalizing t with
  | nil => exact ht
  | cons p cs ih =>
    refine ih ?_
    unfold applyPair
    split
    · exact ht.remove _
    · exact ht.set _ _

/-- The nodes without their versions. -/
def shape (t : StoreTree) : Option (LeafTree Bytes Bytes Unit) :=
  t.root.map (LeafTree.mapAnn fun _ => ())

theorem isEmpty_eq_shape (t : StoreTree) : t.isEmpty = t.shape.isNone := by
  simp [isEmpty,shape]

theorem shape_set (t : StoreTree) (key value : Bytes) : (t.set key value).shape =
    match t.shape with
    | none => some (.leaf key value ())
    | some r => some (r.insert key value ()).1 := by
  obtain ⟨v,_ | r⟩ := t
  · rfl
  · simp only [set,shape,map_some]
    rw [LeafTree.mapAnn_insert (fun _ => ()) key value (v+1) r]

theorem shape_remove (t : StoreTree) (key : Bytes) : (t.remove key).shape =
    match t.shape with
    | none => none
    | some r =>
      match r.erase key () with
      | .missing => some r
      | .gone _ => none
      | .found _ u _ => some u := by
  obtain ⟨v,_ | r⟩ := t
  · rfl
  · have h := LeafTree.mapAnn_erase (fun _ => ()) key (v+1) r
    simp only [remove,shape,map_some,h]
    cases r.erase key (v+1) <;> rfl

theorem shape_applyChangeSet (h : t.shape = t'.shape) (cs : ChangeSet) :
    (t.applyChangeSet cs).shape = (t'.applyChangeSet cs).shape := by
  induction cs generalizing t t' with
  | nil => exact h
  | cons p cs ih =>
    refine ih ?_
    unfold applyPair
    split
    · rw [shape_remove,shape_remove,h]
    · rw [shape_set,shape_set,h]

end StoreTree

/-- What a tree is when the hashes in its snapshot nodes are left out. -/
def TreeState.value (s : TreeState) : StoreTree := ⟨s.version,s.root.map Mixed.contents⟩

/-- What an operation on one tree returns and makes of it. -/
def StoreTree.call (t : StoreTree) : World.Op → World.Reply × StoreTree
  | .set _ key value => (.done,t.set key (value.getD []))
  | .remove _ key => (.done,t.remove key)
  | .rootHash _ => (.hash t.rootHash,t)
  | .saveVersion _ updateHash =>
    match t.saveVersion with
    | .ok t' => (.saved (if updateHash then some t'.rootHash else none) t'.version,t')
    | .error e => (.error e,t)
  | _ => (.done,t)

def StoreTree.calls (t : StoreTree) : List World.Op → List World.Reply × StoreTree
  | [] => ([],t)
  | op::ops => (((t.call op).2.calls ops).map ((t.call op).1::·) id)

namespace World

def steps (w : World) : List Op → Option (List Reply × World)
  | [] => some ([],w)
  | op::ops => do
    let (r,w) ← w.step op
    let (rs,w) ← w.steps ops
    some (r::rs,w)

variable {w : World} {id : ℕ} {s : TreeState}

theorem value_rootHash (hw : w.Good NodeVerified) (hs : w.state id = some s) :
    Mixed.hashRoot s.root = s.value.rootHash := by
  obtain ⟨x,hx⟩ := trees_of_state hs
  obtain ⟨cells,view,hinv⟩ := hw
  obtain rfl := some.inj ((hinv.state_eq hx).symm.trans hs)
  exact hashRoot_eq (hinv.ok id x hx).every

theorem value_call (hhash : Mixed.hashRoot s.root = s.value.rootHash) {op : Op}
    (hop : op.creates = none) : (s.reply op,(s.apply op).value) = s.value.call op := by
  obtain ⟨v,p,root⟩ := s
  cases op with
  | set i key value =>
    cases root with
    | none => rfl
    | some t =>
      have h := LeafTree.mapAnn_insert Stamp.version key (value.getD []) ⟨v+1,none⟩ t
      simp [TreeState.apply,TreeState.reply,TreeState.value,Mixed.setRoot,StoreTree.call,
        StoreTree.set,Mixed.contents,h]
  | remove i key =>
    cases root with
    | none => rfl
    | some t =>
      have h := LeafTree.mapAnn_erase Stamp.version key ⟨v+1,none⟩ t
      simp only [TreeState.apply,TreeState.reply,TreeState.value,Mixed.removeRoot,StoreTree.call,
        StoreTree.remove,map_some,Mixed.contents,h]
      cases t.erase key ⟨v+1,none⟩ <;> rfl
  | rootHash i => exact Prod.ext (congrArg Reply.hash hhash) rfl
  | saveVersion i updateHash =>
    by_cases h : v.toNat = maxUint32 <;> simp_all [StoreTree.call,StoreTree.saveVersion,
      TreeState.value,TreeState.apply,TreeState.reply,StoreTree.rootHash]
  | newEmptyTree | newFromSnapshot | copy => cases hop

/-- Operations on a tree of a heap, with shared nodes, protected versions and cached hashes, return
what they return on the tree value, and leave every copy as it is. -/
theorem steps_refine (hw : w.Good NodeVerified) (hs : w.state id = some s) {ops : List Op}
    (hops : ∀ op ∈ ops, op.on = id ∧ op.creates = none) :
    ∃ w' s', w.steps ops = some ((s.value.calls ops).1,w') ∧ w'.state id = some s' ∧
      s'.value = (s.value.calls ops).2 ∧
      ∀ i u, i ≠ id → w.state i = some u → w'.state i = some u := by
  induction ops generalizing w s with
  | nil => exact ⟨w,s,rfl,hs,rfl,fun _ _ _ h => h⟩
  | cons op ops ih =>
    obtain ⟨⟨rfl,hop⟩,hops⟩ := List.forall_mem_cons.mp hops
    obtain ⟨x,hx⟩ := trees_of_state hs
    have hallowed : w.Allowed (fun s => s.Valid ∧ s.Verified) op := by
      cases op with
      | set | remove | rootHash | saveVersion => exact isSome_iff_exists.mpr ⟨x,hx⟩
      | newEmptyTree | newFromSnapshot | copy => cases hop
    obtain ⟨r,w₁,hrun,hstep⟩ := hw.step nodeVerified_none verified_every hallowed
    obtain ⟨hs₁,rfl⟩ := hstep.own s hs
    obtain ⟨w',s',hrun',hs',hv,hother⟩ := ih hstep.good hs₁ hops
    have hcall := value_call (value_rootHash hw hs) hop
    refine ⟨w',s',?_,hs',?_,fun i u hi hu => hother i u hi (hstep.other i u hi hu)⟩
    · simp only [steps,hrun,hrun',bind_eq_bind,bind_some,StoreTree.calls,← hcall,Prod.map]
    · rw [hv,StoreTree.calls,← hcall]
      rfl

theorem steps_refine_new : ∃ w w' : World,
    w.steps [.set 0 [1] none,.saveVersion 0 true] =
      some ((StoreTree.calls ⟨0,none⟩ [.set 0 [1] none,.saveVersion 0 true]).1,w') := by
  have hw := Reachable.step (P := fun s => s.Valid ∧ s.Verified) (.newEmptyTree 0 0) .empty
    ⟨rfl,by decide⟩ rfl
  obtain ⟨w',s',hrun,-⟩ := @steps_refine _ 0 ⟨0,false,none⟩
    (hw.good nodeVerified_none verified_every) rfl [.set 0 [1] none,.saveVersion 0 true] (by decide)
  exact ⟨_,w',hrun⟩

end World

/-- The nodes as a snapshot stores them, with their hashes. -/
def Contents.hashed : Contents → Persisted
  | .leaf key value version => .leaf key value ⟨version,leafHash key value version⟩
  | .branch height size key version left right =>
    .branch height size key ⟨version,hashNode (.branch height size key version left right)⟩
      (Contents.hashed left) (Contents.hashed right)

@[simp] theorem Contents.mapAnn_hashed (t : Contents) :
    (Contents.hashed t).mapAnn NodeInfo.version = t := by
  induction t with
  | leaf k v a => rfl
  | branch h s k a l r ihl ihr => simp [Contents.hashed,LeafTree.mapAnn,ihl,ihr]

theorem Contents.verified_hashed (t : Contents) :
    Mixed.Verified ((Contents.hashed t).mapAnn NodeInfo.stamp) := by
  have hc : ∀ u : Contents, Mixed.contents ((Contents.hashed u).mapAnn NodeInfo.stamp) = u := by
    intro u
    induction u with
    | leaf k v a => rfl
    | branch h s k a l r ihl ihr =>
      simp only [Mixed.contents] at ihl ihr ⊢
      simp [Contents.hashed,LeafTree.mapAnn,ihl,ihr,NodeInfo.stamp]
  induction t with
  | leaf k v a =>
    intro d hd
    exact (some.inj hd).symm
  | branch h s k a l r ihl ihr =>
    refine ⟨?_,ihl,ihr⟩
    intro d hd
    exact (some.inj hd).symm.trans (congrArg hashNode (hc (.branch h s k a l r)).symm)

namespace StoreTree

def writeTree (t : StoreTree) : TreeFiles := writeSnapshot t.version (t.root.map Contents.hashed)

/-- `NewFromSnapshot` of the files of a tree. Nodes that cannot be read panic when they are
used first, here when the tree is loaded. -/
def load (f : TreeFiles) : Except String StoreTree := do
  let s ← openSnapshot f
  match s.tree with
  | none => .error "index out of range"
  | some root => .ok ⟨s.version,root.map (LeafTree.mapAnn NodeInfo.version)⟩

/-- The limits of the snapshot format: the number of leaves, the lengths of keys and
values, and the length of the file that holds them. -/
def Storable (t : StoreTree) : Prop := ∀ r ∈ t.root.map Contents.hashed,
  r.leafCount < 2^32 ∧ ShortEntries r ∧ kvsLength r < 2^64

instance (t : StoreTree) : Decidable t.Storable := by
  unfold Storable
  infer_instance

theorem load_writeTree {t : StoreTree} (havl : t.Avl) (hs : t.Storable) :
    load t.writeTree = .ok t := by
  obtain ⟨v,root⟩ := t
  cases root with
  | none =>
    simp only [writeTree,load,map_none,openSnapshot_empty]
    rfl
  | some r =>
    obtain ⟨hcount,hshort,hkvs⟩ := hs (Contents.hashed r) rfl
    have hr : (Contents.hashed r).Avl := by
      rw [← LeafTree.avl_mapAnn NodeInfo.version,Contents.mapAnn_hashed]
      exact havl r rfl
    have htree := tree_snapshotOf v hr hcount hshort hkvs
    simp only [writeTree,load,map_some,openSnapshot_writeSnapshot hcount]
    simp only [bind,Except.bind,htree,map_some,Contents.mapAnn_hashed]
    rfl

end StoreTree

end Memiavl
