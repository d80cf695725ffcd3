import Memiavl.Export

/-! The stream of a tree: both exporters produce it, and the importer makes the files of the tree of
it again. -/
namespace Memiavl

open LeafTree List

/-- `ScanPostOrder` of a tree that may be empty, with a bound on the turns of its loop. -/
def scanTree (fuel : ℕ) (root : Option Contents) : List ExportNode :=
  scanPostOrder fuel (root.toList.map (·,false))

theorem scanPostOrder_nil (fuel : ℕ) : scanPostOrder fuel [] = [] := by
  cases fuel <;> rfl

/-- The loop ends after two turns for a branch and one for a leaf. -/
theorem scanTree_eq {root : Option Contents} {fuel : ℕ}
    (hfuel : ∀ t ∈ root, Contents.scanTurns t ≤ fuel) :
    scanTree fuel root = root.toList.flatMap Contents.exported := by
  cases root with
  | none => exact scanPostOrder_nil fuel
  | some t =>
    obtain ⟨rest,rfl⟩ := Nat.exists_eq_add_of_le (hfuel t rfl)
    have h := scanPostOrder_tree t rest []
    rw [scanPostOrder_nil] at h
    simpa [scanTree] using h

/-- The files of a tree are exported node by node as the scan of the tree lists them. -/
theorem export_eq_scan (version : Version) (root : Option Persisted) (havl : ∀ t ∈ root, t.Avl)
    (hcount : ∀ t ∈ root, t.leafCount < 2^32) (hshort : ∀ t ∈ root, ShortEntries t)
    (hkvs : ∀ t ∈ root, kvsLength t < 2^64) (fuel : ℕ)
    (hfuel : ∀ t ∈ root, Contents.scanTurns (t.mapAnn NodeInfo.version) ≤ fuel) :
    ∃ s, openSnapshot (writeSnapshot version root) = .ok s ∧
      s.exportNodes = some (scanTree fuel (root.map (mapAnn NodeInfo.version))) := by
  cases root with
  | none =>
    refine ⟨_,openSnapshot_empty version,?_⟩
    rw [scanTree_eq (by simp)]
    simp [Snapshot.exportNodes,Snapshot.leavesLen]
  | some t =>
    have ht := havl t rfl
    have hcount := hcount t rfl
    have hheight := heightFits ht.balanced (hcount.trans (by norm_num))
    have hdepth := ht.balanced.measured.depth_eq
    have hwaiting := t.waiting_le_depth
    refine ⟨_,openSnapshot_writeSnapshot hcount version,?_⟩
    rw [Snapshot.exportNodes_snapshotOf version ht.exact (by omega) hcount (hshort t rfl)
      (hkvs t rfl),scanTree_eq (by simpa using hfuel)]
    simp

theorem export_eq_scan_two_leaves :
    let i : NodeInfo := ⟨1,emptyHash⟩
    let t : Persisted := .branch 1 2 [7] i (.leaf [3] [] i) (.leaf [7] [1,2] i)
    ∃ s, openSnapshot (writeSnapshot 1 (some t)) = .ok s ∧
      s.exportNodes = some [⟨[3],[],1,0⟩,⟨[7],[1,2],1,0⟩,⟨[7],[],1,1⟩] := by
  intro i t
  refine export_eq_scan 1 (some t) ?_ ?_ ?_ ?_ 4 ?_ <;>
    simp only [Option.mem_some_iff,forall_eq'] <;> decide

theorem exportNodes_single_leaf {key value : Bytes} {i : NodeInfo} (version : Version)
    (hk : key.length < 2^32) (hkvs : key.length+value.length+8 < 2^64) :
    (snapshotOf version (.leaf key value i)).exportNodes =
      some [⟨key,value.take (value.length % 2^32),i.version.toNat,0⟩] := by
  have hs := writtenIn_snapshotOf version (.leaf key value i)
  have hlen : ({} : SnapshotWriter).kvs.length = 0 := rfl
  have hleaf := SnapshotWriter.leaf_written SnapshotWriter.at_start (by norm_num) hs
  have hkey := SnapshotWriter.leafKey_written SnapshotWriter.at_start (by norm_num) hk (by omega) hs
  have hkv := SnapshotWriter.leafKeyValue_written SnapshotWriter.at_start (by norm_num) hk (by omega) hs
  have hat := SnapshotWriter.at_start.writeRecursive (.leaf key value i)
  have hleaves : (snapshotOf version (.leaf key value i)).leavesLen = 1 := by
    rw [Snapshot.leavesLen]
    simp [snapshotOf,hat.leaves,LeafTree.leafCount,SizeLeaf]
  simp only [show UInt32.ofNat 0 = 0 from rfl] at hleaf hkey hkv
  rw [Snapshot.exportNodes,hleaves]
  simp [PersistedNode.version,PersistedNode.key,PersistedNode.value,PersistedNode.leafNode,hleaf,
    hkey,hkv,version_leafRecord]

/-- A value of `2^32` bytes is exported empty from the files. -/
theorem export_truncates_long_value :
    let t : Persisted := .leaf [] (List.replicate (2^32) 0) ⟨1,emptyHash⟩
    t.Avl ∧ t.leafCount < 2^32 ∧ ∃ s, openSnapshot (writeSnapshot 1 (some t)) = .ok s ∧
      s.exportNodes = some [⟨[],[],1,0⟩] ∧
      ∀ fuel, s.exportNodes ≠ some (scanTree fuel (some (t.mapAnn NodeInfo.version))) := by
  have hv : (List.replicate (2^32) (0 : UInt8)).length = 2^32 := length_replicate
  generalize List.replicate (2^32) (0 : UInt8) = value at hv
  intro t
  have hcount : t.leafCount < 2^32 := by simp [t,LeafTree.leafCount]
  have hexport := @exportNodes_single_leaf [] value ⟨1,emptyHash⟩ 1 (by simp) (by rw [hv]; simp)
  rw [hv,Nat.mod_self,take_zero] at hexport
  refine ⟨⟨LeafTree.search_leaf ..,LeafTree.balanced_leaf ..⟩,hcount,_,
    openSnapshot_writeSnapshot hcount 1,hexport,fun fuel h => ?_⟩
  rw [hexport] at h
  cases fuel with
  | zero => simp [scanTree,scanPostOrder] at h
  | succ fuel =>
    simp only [scanTree,t,LeafTree.mapAnn,Option.toList_some,map_cons,map_nil,scanPostOrder,
      Contents.exportNode,Option.some.injEq,List.cons.injEq,ExportNode.mk.injEq] at h
    rw [← h.1.2.1] at hv
    simp at hv

theorem toUint32_toNat (v : Version) : toUint32 v.toNat = v := by
  have hlt := v.toNat_lt
  have hmod : ((v.toNat : ℤ) % 2^32).toNat = v.toNat := by omega
  rw [toUint32,hmod,UInt32.ofNat_toNat]

theorem toNat_toUint8_toInt8 {n : ℕ} (hn : n < 256) : (toUint8 (toInt8 n)).toNat = n := by
  have hmod : toInt8 n % 2^8 = n % 2^8 := Int.bmod_emod
  rw [toUint8,hmod,UInt8.toNat_ofNat']
  omega

theorem toInt8_ne_zero {n : ℕ} (h0 : 0 < n) (hn : n < 256) : toInt8 n ≠ 0 := by
  intro h
  have hback := toNat_toUint8_toInt8 hn
  rw [h] at hback
  simp [toUint8] at hback
  omega

theorem version_exportNode (t : Contents) : t.exportNode.version ≤ maxUint32 := by
  cases t with
  | leaf key value version | branch height size key version left right =>
    have := version.toNat_lt
    simp only [Contents.exportNode,maxUint32]
    omega

theorem version_exported (t : Contents) : ∀ n ∈ Contents.exported t, n.version ≤ maxUint32 := by
  induction t with
  | leaf key value version =>
    intro n hn
    rw [Contents.exported,mem_singleton] at hn
    exact hn ▸ version_exportNode _
  | branch height size key version left right ihl ihr =>
    intro n hn
    simp only [Contents.exported,mem_append,mem_singleton] at hn
    obtain (hn | hn) | rfl := hn
    · exact ihl n hn
    · exact ihr n hn
    · exact version_exportNode _

/-- Exported nodes keep heights that fit eight bits, so the importer takes the listing of the tree. -/
theorem token_exported {t : Contents} (ht : t.Balanced) (hheight : t.height < 256) :
    (Contents.exported t).map ExportNode.token = t.postorder := by
  induction t with
  | leaf key value version =>
    simp [Contents.exported,Contents.exportNode,ExportNode.token,toUint32_toNat,postorder]
  | branch height size key version left right ihl ihr =>
    obtain ⟨hl,hr,hmax,-,-,-⟩ := ht
    rw [height_branch] at hheight
    have hne : toInt8 height ≠ 0 := toInt8_ne_zero (by omega) hheight
    have hbranch : ExportNode.token (Contents.exportNode (.branch height size key version left right)) =
        .branch height version := by
      rw [Contents.exportNode,ExportNode.token,if_neg hne,toUint32_toNat,toNat_toUint8_toInt8 hheight]
    simp only [Contents.exported,map_append,map_cons,map_nil,postorder,hbranch,
      ihl hl (by omega),ihr hr (by omega)]

/-- The stored hashes of a tree are determined by its contents. -/
theorem hashed_of_verified {t : Persisted} (ht : Mixed.Verified (t.mapAnn NodeInfo.stamp)) :
    Contents.hashed (t.mapAnn NodeInfo.version) = t := by
  have hcontents : ∀ u : Persisted, Mixed.contents (u.mapAnn NodeInfo.stamp) =
      u.mapAnn NodeInfo.version := by
    intro u
    induction u with
    | leaf k v i => rfl
    | branch h s k i l r ihl ihr =>
      simp only [Mixed.contents] at ihl ihr ⊢
      simp [LeafTree.mapAnn,ihl,ihr,NodeInfo.stamp]
  induction t with
  | leaf k v i =>
    have hhash : i.hash = leafHash k v i.version := ht i.hash rfl
    simp [LeafTree.mapAnn,Contents.hashed,← hhash]
  | branch h s k i l r ihl ihr =>
    obtain ⟨hroot,hl,hr⟩ := ht
    have hhash : i.hash = hashNode ((LeafTree.branch h s k i l r).mapAnn NodeInfo.version) :=
      (hroot i.hash rfl).trans (congrArg hashNode (hcontents (.branch h s k i l r)))
    simp only [LeafTree.mapAnn] at hhash ⊢
    rw [Contents.hashed,ihl hl,ihr hr,← hhash]

/-- The stream of a tree with correct hashes is imported as the files that the tree itself is
written to. -/
theorem doImport_scan (version : Version) (root : Option Persisted) (havl : ∀ t ∈ root, t.Avl)
    (hcount : ∀ t ∈ root, t.leafCount < 2^32)
    (hhashes : ∀ t ∈ root, Mixed.Verified (t.mapAnn NodeInfo.stamp)) (fuel : ℕ)
    (hfuel : ∀ t ∈ root, Contents.scanTurns (t.mapAnn NodeInfo.version) ≤ fuel) :
    doImport version.toNat (scanTree fuel (root.map (mapAnn NodeInfo.version))) =
      .ok (writeSnapshot version root) := by
  have hversion : version.toNat ≤ maxUint32 := by
    have := version.toNat_lt
    rw [maxUint32]
    omega
  rw [doImport_eq hversion,scanTree_eq (by simpa using hfuel)]
  cases root with
  | none => simp [buildRoot,buildTrees,StoreTree.writeTree,UInt32.ofNat_toNat]
  | some t =>
    have ht : (t.mapAnn NodeInfo.version).Avl := (avl_mapAnn ..).mpr (havl t rfl)
    have hheight := heightFits (havl t rfl).balanced ((hcount t rfl).trans (by norm_num))
    have hbuild : buildTrees [] (Contents.exported (t.mapAnn NodeInfo.version)) =
        .ok [t.mapAnn NodeInfo.version] := by
      refine buildTrees_of_rebuild (version_exported _) ?_
      rw [token_exported ht.balanced (by simpa using hheight),rebuild_postorder ht.exact]
    simp [buildRoot,hbuild,StoreTree.writeTree,UInt32.ofNat_toNat,hashed_of_verified (hhashes t rfl)]

theorem doImport_scan_two_leaves :
    let left : Contents := .leaf [3] [] 1
    let right : Contents := .leaf [7] [1,2] 2
    doImport 2 [⟨[3],[],1,0⟩,⟨[7],[1,2],2,0⟩,⟨[7],[],2,1⟩] =
      .ok (writeSnapshot 2 (some (Contents.hashed (.branch 1 2 [7] 2 left right)))) := by
  intro left right
  refine doImport_scan 2 (some (Contents.hashed (.branch 1 2 [7] 2 left right))) ?_ ?_ ?_ 4 ?_ <;>
    simp only [Option.mem_some_iff,forall_eq',Contents.mapAnn_hashed]
  · rw [← avl_mapAnn NodeInfo.version,Contents.mapAnn_hashed]
    decide
  · rw [Importer.leafCount_hashed]
    decide
  · exact Contents.verified_hashed _
  · decide

end Memiavl
