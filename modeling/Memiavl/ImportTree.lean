import Memiavl.Import

/-! What the items of a stream describe, as trees: the stack machine of the library on the nodes
of each store. The importer with its files, counters and hashes computes the files of these
trees (`doImport_eq`, `restoreLoop_write`). -/
namespace Memiavl

open LeafTree List

/-- The node of a listing that an exported node stands for. -/
def ExportNode.token (n : ExportNode) : Token Bytes Bytes Version :=
  if n.height = 0 then .leaf n.key n.value (toUint32 n.version)
  else .branch (toUint8 n.height).toNat (toUint32 n.version)

def buildTrees (ts : List Contents) : List ExportNode → Outcome (List Contents)
  | [] => .ok ts
  | n::ns =>
    if n.version > maxUint32 then .error s!"version overflows uint32: {n.version}"
    else
      match push ts n.token with
      | none => .panic
      | some ts => buildTrees ts ns

def buildRoot (nodes : List ExportNode) : Outcome (Option Contents) :=
  (buildTrees [] nodes).bind fun ts =>
    match ts with
    | [] => .ok none
    | [t] => .ok (some t)
    | ts => .error s!"invalid node structure, found stack size {ts.length} after imported"

namespace Importer

/-- The writer after the trees on a stack. -/
def writeAll : List Contents → SnapshotWriter
  | [] => {}
  | t::ts => (writeAll ts).writeRecursive (Contents.hashed t)

def leafCounters : List Contents → List UInt32
  | [] => []
  | t::ts => (writeAll (t::ts)).leafCounter::leafCounters ts

def node (t : Contents) : ImportedNode := ⟨t.size,hashNode t⟩

/-- The state of the importer that stands for a stack of trees. -/
def ofTrees (ts : List Contents) : Importer := ⟨writeAll ts,leafCounters ts,ts.map node⟩

def leafTotal (ts : List Contents) : ℕ := (ts.map leafCount).sum

@[simp] theorem leafCount_hashed (t : Contents) : (Contents.hashed t).leafCount = t.leafCount := by
  induction t with
  | leaf k v a => rfl
  | branch h s k a l r ihl ihr => simp only [Contents.hashed,leafCount,ihl,ihr]

theorem length_le_leafTotal (ts : List Contents) : ts.length ≤ leafTotal ts := by
  induction ts with
  | nil => exact le_rfl
  | cons t ts ih =>
    have := leafCount_pos t
    simp only [leafTotal,map_cons,sum_cons,length_cons] at ih ⊢
    omega

theorem at_writeAll (ts : List Contents) :
    (writeAll ts).At (leafTotal ts) (leafTotal ts-ts.length) := by
  induction ts with
  | nil => exact SnapshotWriter.at_start
  | cons t ts ih =>
    have hle := length_le_leafTotal ts
    have hpos := leafCount_pos t
    have h := ih.writeRecursive (Contents.hashed t)
    rw [leafCount_hashed] at h
    have hl : leafTotal (t::ts) = leafTotal ts+t.leafCount := by
      simp only [leafTotal,map_cons,sum_cons]
      omega
    have hb : leafTotal (t::ts)-(t::ts).length = leafTotal ts-ts.length+t.leafCount-1 := by
      rw [hl,length_cons]
      omega
    rw [hb,hl]
    exact h

/-- The pending nodes that `preTrees` counts are the trees below on the stack. -/
theorem preTrees_writeAll (ts : List Contents) :
    ((writeAll ts).leafCounter - (writeAll ts).branchCounter).toUInt8 = UInt8.ofNat ts.length := by
  have hle := length_le_leafTotal ts
  obtain ⟨-,-,hl,hb,-⟩ := at_writeAll ts
  rw [hl,hb,SnapshotWriter.preTrees_counters (by omega),Nat.sub_sub_self hle]

theorem writeAll_join (height : UInt8) (version : Version) (l r : Contents) (ts : List Contents) :
    writeAll (join height.toNat version l r::ts) =
      (writeAll (r::l::ts)).writeBranch version (.ofNat (l.size+r.size)) height
        (.ofNat ts.length) (writeAll (l::ts)).leafCounter
        (branchHash height.toNat (l.size+r.size) version (hashNode l) (hashNode r)) := by
  simp only [writeAll,join,Contents.hashed,SnapshotWriter.writeRecursive,preTrees_writeAll,
    UInt8.ofNat_toNat,hashNode]

@[simp] theorem leafCounter_writeBranch (w : SnapshotWriter) (version size : UInt32)
    (height preTrees : UInt8) (keyLeaf : UInt32) (hash : Digest) :
    (w.writeBranch version size height preTrees keyLeaf hash).leafCounter = w.leafCounter := rfl

/-- One node: the importer goes on like the stack of trees. -/
theorem add_ofTrees (ts : List Contents) (n : ExportNode) : (ofTrees ts).add n =
    if n.version > maxUint32 then .error s!"version overflows uint32: {n.version}"
    else
      match push ts n.token with
      | none => .panic
      | some ts => .ok (ofTrees ts) := by
  unfold add
  split
  · rfl
  simp only
  by_cases hleaf : n.height = 0
  · rw [if_pos hleaf,ExportNode.token,if_pos hleaf]
    rfl
  · rw [if_neg hleaf,ExportNode.token,if_neg hleaf]
    match ts with
    | [] => rfl
    | [t] => rfl
    | r::l::ts =>
      have hw := writeAll_join (toUint8 n.height) (toUint32 n.version) l r ts
      simp only [ofTrees,leafCounters,map_cons,push,node,length_map,hw,
        leafCounter_writeBranch]
      rfl

theorem addAll_ofTrees (ts : List Contents) (ns : List ExportNode) :
    (ofTrees ts).addAll ns = (buildTrees ts ns).map ofTrees := by
  induction ns generalizing ts with
  | nil => rfl
  | cons n ns ih =>
    rw [addAll,add_ofTrees,buildTrees]
    split
    · rfl
    · split
      · rfl
      · exact ih _

@[simp] theorem length_leafCounters (ts : List Contents) : (leafCounters ts).length = ts.length := by
  induction ts with
  | nil => rfl
  | cons t ts ih => rw [leafCounters,length_cons,ih,length_cons]

end Importer

/-- The importer of a tree writes the files of the tree that the nodes describe. -/
theorem doImport_eq {version : ℕ} (hv : version ≤ maxUint32) (nodes : List ExportNode) :
    doImport version nodes =
      (buildRoot nodes).map fun root => StoreTree.writeTree ⟨.ofNat version,root⟩ := by
  rw [doImport,if_neg (Nat.not_lt.mpr hv),buildRoot]
  change ((Importer.ofTrees []).addAll nodes).bind _ = _
  rw [Importer.addAll_ofTrees]
  cases buildTrees [] nodes with
  | error err => rfl
  | panic => rfl
  | ok ts =>
    match ts with
    | [] => rfl
    | [t] => rfl
    | t::u::ts =>
      simp only [Outcome.map_ok,Outcome.bind_ok,Importer.finish,Importer.ofTrees,
        Importer.length_leafCounters,length_cons]
      rfl

/-- Whatever is taken is the listing of the trees on the stack, in the limits of the fields. -/
theorem buildTrees_eq_ok {ts ts' : List Contents} {nodes : List ExportNode}
    (h : buildTrees ts nodes = .ok ts') : rebuild ts (nodes.map ExportNode.token) = some ts' := by
  induction nodes generalizing ts with
  | nil =>
    cases h
    rfl
  | cons n ns ih =>
    unfold buildTrees at h
    split at h
    · cases h
    · split at h
      · cases h
      · rename_i ts₁ hpush
        rw [map_cons,rebuild_cons,hpush]
        exact ih h

theorem buildTrees_of_rebuild {ts ts' : List Contents} {nodes : List ExportNode}
    (hv : ∀ n ∈ nodes, n.version ≤ maxUint32)
    (h : rebuild ts (nodes.map ExportNode.token) = some ts') : buildTrees ts nodes = .ok ts' := by
  induction nodes generalizing ts with
  | nil =>
    cases h
    rfl
  | cons n ns ih =>
    rw [map_cons,rebuild_cons,Option.bind_eq_some_iff] at h
    obtain ⟨ts₁,hpush,h⟩ := h
    rw [buildTrees,if_neg (not_lt.mpr (hv n (by simp))),hpush]
    exact ih (fun m hm => hv m (by simp [hm])) h

theorem height_token_lt {n : ExportNode} {height : ℕ} {v : Version}
    (h : n.token = .branch height v) : height < 256 := by
  unfold ExportNode.token at h
  split at h <;> cases h
  exact (toUint8 n.height).toNat_lt

/-- The tree of a store has the sizes and keys of its subtrees; its heights only fit their
field. -/
theorem buildRoot_spec {nodes : List ExportNode} {t : Contents}
    (h : buildRoot nodes = .ok (some t)) :
    t.Exact ∧ nodes.map ExportNode.token = t.postorder ∧ t.Every fun u => u.height < 256 := by
  unfold buildRoot at h
  cases hts : buildTrees [] nodes with
  | error err => simp [hts] at h
  | panic => simp [hts] at h
  | ok ts =>
    rw [hts,Outcome.bind_ok] at h
    match ts,h with
    | [_],rfl =>
      obtain ⟨ht,hlist⟩ := rebuild_eq_single_iff.mp (buildTrees_eq_ok hts)
      refine ⟨ht,hlist,every_height_of_postorder (by norm_num) fun height v hmem => ?_⟩
      rw [← hlist] at hmem
      obtain ⟨n,-,hn⟩ := List.mem_map.mp hmem
      exact height_token_lt hn

/-- What was read of a stream: the stores that are complete, and the one in work. -/
structure Stream where
  stores : Option (List (Bytes × Option Contents)) := none
  current : Option (Bytes × List ExportNode) := none

namespace Stream

/-- Completes the store in work. -/
def close (s : Stream) : Outcome Stream :=
  match s.current with
  | none => .ok s
  | some (name,nodes) => (buildRoot nodes).map fun root =>
      ⟨some (putFiles name root (s.stores.getD [])),none⟩

def fail {α : Type} (s : Stream) (err : String) : Outcome α :=
  match s.close with
  | .panic => .panic
  | _ => .error err

def read (s : Stream) : List SnapshotItem → Outcome (Option SnapshotItem × Stream)
  | [] => .ok (none,s)
  | .store name::items => s.close.bind fun s => read { s with current := some (name,[]) } items
  | .iavl key value version height::items =>
    if height > maxInt8 then
      s.fail s!"node height {height} cannot exceed {maxInt8}: internal logic error"
    else
      match s.current with
      | none => .panic
      | some (name,nodes) =>
        read { s with current := some (name,nodes ++ [⟨key,value,version,toInt8 height⟩]) } items
  | .extension::_ => .ok (some .extension,s)
  | .invalid err::_ => s.fail s!"invalid protobuf message: {err}"

/-- The stores that a stream describes, with those that were left over. -/
def describe (left : Option (List (Bytes × Option Contents))) (items : List SnapshotItem) :
    Outcome (Option (List (Bytes × Option Contents))) :=
  (read ⟨left,none⟩ items).bind fun (_,s) => s.close.map Stream.stores

/-- The importer of all trees that has read the same. -/
def write (height : ℕ) (s : Stream) : MultiTreeImporter where
  height := height
  trees := s.stores.map (List.map fun p => (p.1,StoreTree.writeTree ⟨.ofNat height,p.2⟩))
  importer := s.current

section
variable {height : ℕ} (hh : height ≤ maxUint32)
include hh

theorem closeImporter_write (s : Stream) :
    (s.write height).closeImporter = s.close.map (write height) := by
  obtain ⟨stores,_ | ⟨name,nodes⟩⟩ := s
  · rfl
  · simp only [MultiTreeImporter.closeImporter,write,close,doImport_eq hh]
    cases buildRoot nodes with
    | error err => rfl
    | panic => rfl
    | ok root =>
      cases stores with
      | none => rfl
      | some stores =>
        simp [Outcome.map,write,putFiles,List.filter_map,Function.comp_def]

theorem fail_write {α : Type} (s : Stream) (err : String) :
    (s.write height).fail err = (s.fail err : Outcome α) := by
  rw [MultiTreeImporter.fail,closeImporter_write hh,fail]
  cases s.close <;> rfl

/-- The loop of `restore` refines the reading of the stream. -/
theorem restoreLoop_write (s : Stream) (items : List SnapshotItem) :
    (s.write height).restoreLoop items =
      (s.read items).map fun (item,s) => (item,s.write height) := by
  induction items generalizing s with
  | nil => rfl
  | cons item items ih =>
    cases item with
    | store name =>
      rw [MultiTreeImporter.restoreLoop,MultiTreeImporter.addTree,closeImporter_write hh,read]
      cases s.close with
      | error err => rfl
      | panic => rfl
      | ok s => exact ih { s with current := some (name,[]) }
    | iavl key value version h =>
      rw [MultiTreeImporter.restoreLoop,read]
      split
      · rw [fail_write hh]
        unfold fail
        split <;> rfl
      · obtain ⟨stores,_ | ⟨name,nodes⟩⟩ := s
        · rfl
        · exact ih ⟨stores,some (name,nodes ++ [⟨key,value,version,toInt8 h⟩])⟩
    | extension => rfl
    | invalid err =>
      rw [MultiTreeImporter.restoreLoop,fail_write hh,read]
      unfold fail
      split <;> rfl

end
end Stream

theorem hash_storedRoot {s : Snapshot} {t : Persisted} {l b : ℕ} (hs : Stored s t l b) :
    (storedRoot s t l b).hash = some t.ann.hash := by
  cases t with
  | leaf k v i =>
    obtain ⟨⟨data,hdata,-,hhash⟩,-,-⟩ := hs
    simp [storedRoot,PersistedNode.hash,PersistedNode.leafNode,hdata,hhash,ann]
  | branch h n k i left right =>
    simp [storedRoot_branch,PersistedNode.hash,PersistedNode.branchNode,hs.2.2,ann]

@[simp] theorem Contents.hash_hashed (t : Contents) : (Contents.hashed t).ann.hash = hashNode t := by
  cases t <;> rfl

namespace StoreTree

theorem openSnapshot_writeTree {t : StoreTree} (hs : t.Storable) :
    ∃ s, openSnapshot t.writeTree = .ok s ∧ s.rootHash = some t.rootHash := by
  obtain ⟨v,_ | r⟩ := t
  · exact ⟨_,openSnapshot_empty v,rfl⟩
  · obtain ⟨hcount,hshort,hkvs⟩ := hs (Contents.hashed r) rfl
    obtain ⟨-,hstored⟩ := SnapshotWriter.writeRecursive_stored SnapshotWriter.at_start le_rfl
      (by simpa using hcount) hshort (by simpa using hkvs)
      (writtenIn_snapshotOf v (Contents.hashed r))
    refine ⟨_,openSnapshot_writeSnapshot hcount v,?_⟩
    rw [Snapshot.rootHash,rootNode_snapshotOf]
    simp only [hash_storedRoot hstored,Contents.hash_hashed]
    rfl

end StoreTree

namespace Stream

def files (height : ℕ) (stores : List (Bytes × Option Contents)) : List (Bytes × TreeFiles) :=
  stores.map fun p => (p.1,StoreTree.writeTree ⟨.ofNat height,p.2⟩)

def metadata (height : ℕ) (stores : List (Bytes × Option Contents)) : MultiTreeMetadata :=
  ⟨⟨height,(stores.insertionSort fun a b => a.1 ≤ b.1).map fun p => ⟨p.1,⟨height,rootHash p.2⟩⟩⟩,
    height+1⟩

/-- All stores are in the limits of the snapshot format. -/
def Storable (height : ℕ) (stores : List (Bytes × Option Contents)) : Prop :=
  ∀ p ∈ stores, StoreTree.Storable ⟨.ofNat height,p.2⟩

variable {height : ℕ} {stores : List (Bytes × Option Contents)}

theorem storeInfos_files (hs : Storable height stores) :
    MultiTreeImporter.storeInfos height (files height stores) =
      .ok (stores.map fun p => ⟨p.1,⟨height,rootHash p.2⟩⟩) := by
  induction stores with
  | nil => rfl
  | cons p stores ih =>
    obtain ⟨s,hopen,hhash⟩ := StoreTree.openSnapshot_writeTree (hs p (by simp))
    have hrest := ih fun q hq => hs q (by simp [hq])
    rw [files] at hrest ⊢
    rw [map_cons,MultiTreeImporter.storeInfos,hopen]
    simp only [Outcome.ofExcept,Outcome.bind_ok,hhash,hrest,Outcome.map_ok,map_cons]
    rfl

theorem updateMetadataFile_files (hs : Storable height stores) :
    MultiTreeImporter.updateMetadataFile height (files height stores) =
      .ok ⟨files height stores,metadata height stores⟩ := by
  have hsort : (files height stores).insertionSort (fun a b => a.1 ≤ b.1) =
      files height (stores.insertionSort fun a b => a.1 ≤ b.1) :=
    (map_insertionSort (fun a b : Bytes × Option Contents => a.1 ≤ b.1)
      (fun a b : Bytes × TreeFiles => a.1 ≤ b.1) _ stores fun _ _ _ _ => Iff.rfl).symm
  rw [MultiTreeImporter.updateMetadataFile,hsort,storeInfos_files]
  · rfl
  · exact fun p hp => hs p ((mem_insertionSort _).mp hp)

end Stream

namespace Disk

/-- The snapshot of a restore becomes the current one. -/
def install (d : Disk) (height : ℕ) (dir : SnapshotDir) : Outcome Disk :=
  if height ∈ d.versions then .error "file exists"
  else if d.currentTmp.isSome then .error "file exists"
  else .ok { d with
    snapshots := putDir height dir d.snapshots
    tmpDirs := removeDir height (putDir height dir d.tmpDirs)
    current := some height
    currentTmp := none }

theorem promote_eq (d : Disk) (height : ℕ) (dir : SnapshotDir) :
    d.promote height dir = d.install height dir := by
  unfold promote install
  simp only [renameTmp,lookup_putDir]
  by_cases hmem : height ∈ d.versions
  · have hmem' : height ∈ { d with tmpDirs := putDir height dir d.tmpDirs }.versions := hmem
    simp only [if_pos hmem,if_pos hmem']
  · have hmem' : height ∉ { d with tmpDirs := putDir height dir d.tmpDirs }.versions := hmem
    simp only [if_neg hmem,if_neg hmem',updateCurrentSymlink,linkTmp]
    cases d.currentTmp <;> rfl

/-- A restore by what the stream describes, with the stores in a temporary directory of that
height that was left over. -/
theorem restore_eq {d : Disk} {height : ℕ} {left : Option (List (Bytes × Option Contents))}
    (hh : height ≤ maxUint32)
    (hleft : (d.tmpDirs.lookup height).map SnapshotDir.trees = left.map (Stream.files height))
    (items : List SnapshotItem) :
    (d.restore height items).map Prod.snd =
      (Stream.describe left items).bind fun stores =>
        match stores with
        | none => .error "no such file or directory"
        | some stores =>
          (MultiTreeImporter.updateMetadataFile height (Stream.files height stores)).bind
            (d.install height) := by
  rw [restore,if_neg (Nat.not_lt.mpr hh),hleft,Stream.describe]
  change Outcome.map _ (((Stream.write height ⟨left,none⟩).restoreLoop items).bind _) = _
  rw [Stream.restoreLoop_write hh]
  cases Stream.read ⟨left,none⟩ items with
  | error err => rfl
  | panic => rfl
  | ok r =>
    obtain ⟨item,s⟩ := r
    simp only [Outcome.map_ok,Outcome.bind_ok,MultiTreeImporter.finalize,
      Stream.closeImporter_write hh]
    cases s.close with
    | error err => rfl
    | panic => rfl
    | ok s =>
      obtain ⟨_ | stores,current⟩ := s
      · rfl
      · simp only [Outcome.map_ok,Outcome.bind_ok,Stream.write,Option.map_some]
        change Outcome.map _ (Outcome.map _ (Outcome.bind
          (MultiTreeImporter.updateMetadataFile height (Stream.files height stores)) _)) = _
        cases MultiTreeImporter.updateMetadataFile height (Stream.files height stores) with
        | error err => rfl
        | panic => rfl
        | ok dir =>
          simp only [Outcome.bind_ok,promote_eq]
          cases d.install height dir <;> rfl

end Disk

end Memiavl
