import Memiavl.CachedTree

/-! Proofs that a key is in a tree or not. The bytes that a node hashes are split into what an
operation puts in front of the hash of a child and behind it, so that the operations from a leaf up
to the root hash the same bytes again. -/
namespace Memiavl

open HeapM LeafTree Bytes

inductive HashOp
  | noHash
  | sha256
  deriving DecidableEq

inductive LengthOp
  | noPrefix
  | varProto
  deriving DecidableEq

structure LeafOp where
  hash : HashOp
  prehashKey : HashOp := .noHash
  prehashValue : HashOp
  length : LengthOp
  prefixBytes : Bytes
  deriving DecidableEq

structure InnerOp where
  hash : HashOp
  prefixBytes : Bytes
  suffixBytes : Bytes
  deriving DecidableEq

structure ExistenceProof where
  key : Bytes
  value : Bytes
  leaf : LeafOp
  path : List InnerOp
  deriving DecidableEq

structure NonExistenceProof where
  key : Bytes
  left : Option ExistenceProof := none
  right : Option ExistenceProof := none
  deriving DecidableEq

inductive CommitmentProof
  | exist (proof : ExistenceProof)
  | nonexist (proof : NonExistenceProof)
  deriving DecidableEq

def doHashOrNoop : HashOp → Bytes → Bytes
  | .noHash,data => data
  | .sha256,data => (sha256 data).val

def doLengthOp : LengthOp → Bytes → Bytes
  | .noPrefix,data => data
  | .varProto,data => putUvarint data.length ++ data

def LeafOp.apply (op : LeafOp) (key value : Bytes) : Bytes :=
  doHashOrNoop op.hash (op.prefixBytes ++ doLengthOp op.length (doHashOrNoop op.prehashKey key) ++
    doLengthOp op.length (doHashOrNoop op.prehashValue value))

def InnerOp.apply (op : InnerOp) (child : Bytes) : Bytes :=
  doHashOrNoop op.hash (op.prefixBytes ++ child ++ op.suffixBytes)

/-- The leaf operation on a key and a value, and then the operations of the path. -/
def ExistenceProof.calculate (proof : ExistenceProof) (key value : Bytes) : Bytes :=
  proof.path.foldl (fun res op => op.apply res) (proof.leaf.apply key value)

/-- `ProofInnerNode`; a missing hash is empty. -/
structure ProofInnerNode where
  height : Int8
  size : Int64
  version : Int64
  left : Bytes
  right : Bytes
  deriving DecidableEq

def convertVarIntToBytes (orig : Int64) : Bytes := putVarint orig.toInt

def convertLeafOp (version : Int64) : LeafOp where
  hash := .sha256
  prehashValue := .sha256
  length := .varProto
  prefixBytes := convertVarIntToBytes 0 ++ convertVarIntToBytes 1 ++ convertVarIntToBytes version

def lengthByte : UInt8 := 0x20

def convertInnerOp (node : ProofInnerNode) : InnerOp :=
  let prefixBytes := convertVarIntToBytes node.height.toInt64 ++ convertVarIntToBytes node.size ++
    convertVarIntToBytes node.version
  if node.left.length > 0 then
    ⟨.sha256,prefixBytes ++ [lengthByte] ++ node.left ++ [lengthByte],[]⟩
  else ⟨.sha256,prefixBytes ++ [lengthByte],lengthByte::node.right⟩

def convertInnerOps (path : List ProofInnerNode) : List InnerOp := path.reverse.map convertInnerOp

def Node.version : Node → HeapM MemNode Version
  | .mem a => do return (← load a).version
  | .persisted p => lift p.version

/-- `pathToLeaf`: the inner nodes from the root on, the leaf that is reached and the error. -/
def pathToLeaf (key : Bytes) :
    ℕ → Node → HeapM MemNode (List ProofInnerNode × Node × Option String)
  | 0,_ => lift none
  | fuel+1,node => do
    let height ← node.height
    let nodeKey ← node.key
    if height = 0 then
      return ([],node,if nodeKey = key then none else some "key does not exist")
    else
      let size ← node.size
      let version ← node.version
      if key < nodeKey then
        let right ← node.right
        let hash ← right.hash fuel
        let left ← node.left
        let (path,reached,err) ← pathToLeaf key fuel left
        return (⟨.ofNat height,.ofNat size,.ofNat version.toNat,[],hash.val⟩::path,reached,err)
      else
        let left ← node.left
        let hash ← left.hash fuel
        let right ← node.right
        let (path,reached,err) ← pathToLeaf key fuel right
        return (⟨.ofNat height,.ofNat size,.ofNat version.toNat,hash.val,[]⟩::path,reached,err)

/-- `createExistenceProof`; the proof is made up also if there is an error. -/
def Tree.createExistenceProof (t : Tree) (key : Bytes) :
    HeapM MemNode (ExistenceProof × Option String) := do
  let root ← lift t.root
  let fuel ← t.fuel
  let (path,node,err) ← pathToLeaf key fuel root
  let nodeKey ← node.key
  let value ← node.value
  let version ← node.version
  return (⟨nodeKey,value.getD [],convertLeafOp (.ofNat version.toNat),convertInnerOps path⟩,err)

namespace CachedTree

variable {C : ValueCache Bytes Bytes}

def getMembershipProof (t : CachedTree C) (key : Bytes) :
    HeapM MemNode (Except String CommitmentProof) := do
  let (exist,err) ← t.tree.createExistenceProof key
  match err with
  | some err => return .error err
  | none => return .ok (.exist exist)

/-- The left part of `GetNonMembershipProof`; a missing key is passed on as the empty one. -/
def leftProof (t : CachedTree C) (idx : Int64) :
    HeapM MemNode (Option ExistenceProof × Option String) :=
  if idx ≥ 1 then do
    let (leftkey,_) ← t.getByIndex (idx-1)
    let (proof,err) ← t.tree.createExistenceProof (leftkey.getD [])
    return (some proof,err)
  else pure (none,none)

def rightProof (t : CachedTree C) (idx : Int64) :
    HeapM MemNode (Option ExistenceProof × Option String) := do
  let (rightkey,_) ← t.getByIndex idx
  match rightkey with
  | none => return (none,none)
  | some rightkey =>
    let (proof,err) ← t.tree.createExistenceProof rightkey
    return (some proof,err)

def getNonMembershipProof (t : CachedTree C) (key : Bytes) :
    HeapM MemNode (Except String CommitmentProof) := do
  let (idx,val) ← t.getWithIndex key
  if val.isSome then return .error "cannot create NonExistanceProof when Key in State"
  else
    let (left,err) ← t.leftProof idx
    match err with
    | some err => return .error err
    | none =>
      let (right,err) ← t.rightProof idx
      match err with
      | some err => return .error err
      | none => return .ok (.nonexist ⟨key,left,right⟩)

end CachedTree

namespace Mixed

/-- The inner nodes on the way to a key. -/
def pathTo (key : Bytes) : Mixed → List ProofInnerNode
  | .leaf .. => []
  | .branch height size k s left right =>
    if key < k then
      ⟨.ofNat height,.ofNat size,.ofNat s.version.toNat,[],(Mixed.hash right).val⟩::pathTo key left
    else ⟨.ofNat height,.ofNat size,.ofNat s.version.toNat,(Mixed.hash left).val,[]⟩::pathTo key right

def leafTo (key : Bytes) : Mixed → Bytes × Bytes × Stamp
  | .leaf k v s => (k,v,s)
  | .branch _ _ k _ left right => if key < k then leafTo key left else leafTo key right

theorem lookup_eq_leafTo {t : Mixed} (ht : t.Search) (key : Bytes) : t.toList.lookup key =
    if (t.leafTo key).1 = key then some (t.leafTo key).2.1 else none := by
  induction t with
  | leaf k v s =>
    by_cases hk : k = key
    · simp [leafTo,hk]
    · simp [leafTo,hk,List.lookup_cons,beq_false_of_ne (Ne.symm hk)]
  | branch height size k s left right ihl ihr =>
    obtain ⟨hl,hr,hmin,hlt⟩ := ht
    rw [toList_branch,leafTo]
    split
    · rename_i hkey
      rw [lookup_left (fun x hx => hmin ▸ hr.minKey_le hx) hkey,ihl hl]
    · rename_i hkey
      rw [lookup_right hlt hkey,ihr hr]

end Mixed

theorem encodeBytes_digest (d : Digest) : encodeBytes d.val = lengthByte::d.val := by
  rw [encodeBytes,d.property]
  rfl

theorem convertVarIntToBytes_ofNat {n : ℕ} (h : n < 2^63) :
    convertVarIntToBytes (.ofNat n) = putVarint n := by
  rw [convertVarIntToBytes,Int64.toInt_ofNat_of_lt h]

theorem convertVarIntToBytes_height {n : ℕ} (h : n < 2^7) :
    convertVarIntToBytes (Int8.ofNat n).toInt64 = putVarint n := by
  rw [convertVarIntToBytes,Int8.toInt_toInt64,Int8.toInt_ofNat_of_lt h]

theorem toNat_version_lt (version : Version) : version.toNat < 2^63 :=
  version.toNat_lt.trans (by norm_num)

theorem apply_convertLeafOp (version : Version) (key value : Bytes) :
    (convertLeafOp (.ofNat version.toNat)).apply key value = (leafHash key value version).val := by
  rw [convertLeafOp,convertVarIntToBytes_ofNat (toNat_version_lt version)]
  rfl

/-- The child on the left, between the numbers of the node and the other hash. -/
theorem apply_left {height size : ℕ} (hheight : height < 2^7) (hsize : size < 2^63) (version : Version)
    (left right : Digest) :
    (convertInnerOp ⟨.ofNat height,.ofNat size,.ofNat version.toNat,[],right.val⟩).apply left.val =
      (branchHash height size version left right).val := by
  have hbytes : writeHashBytes height size version left.val right.val =
      putVarint height ++ putVarint size ++ putVarint version.toNat ++ [lengthByte] ++ left.val ++
        lengthByte::right.val := by
    simp [writeHashBytes,encodeBytes_digest]
  simp only [convertInnerOp,convertVarIntToBytes_height hheight,convertVarIntToBytes_ofNat hsize,
    convertVarIntToBytes_ofNat (toNat_version_lt version),List.length_nil,gt_iff_lt,
    Nat.lt_irrefl,if_false,InnerOp.apply,doHashOrNoop,branchHash,hbytes]

/-- The child on the right, behind the other hash. -/
theorem apply_right {height size : ℕ} (hheight : height < 2^7) (hsize : size < 2^63)
    (version : Version) (left right : Digest) :
    (convertInnerOp ⟨.ofNat height,.ofNat size,.ofNat version.toNat,left.val,[]⟩).apply right.val =
      (branchHash height size version left right).val := by
  have hbytes : writeHashBytes height size version left.val right.val =
      putVarint height ++ putVarint size ++ putVarint version.toNat ++ [lengthByte] ++ left.val ++
        [lengthByte] ++ right.val ++ [] := by
    simp [writeHashBytes,encodeBytes_digest]
  have hleft : left.val.length > 0 := by
    rw [left.property]
    norm_num
  simp only [convertInnerOp,convertVarIntToBytes_height hheight,convertVarIntToBytes_ofNat hsize,
    convertVarIntToBytes_ofNat (toNat_version_lt version),hleft,if_true,InnerOp.apply,doHashOrNoop,
    branchHash,hbytes]

namespace Mixed

theorem Verified.hash_leaf {key value : Bytes} {s : Stamp} (h : Verified (.leaf key value s)) :
    Mixed.hash (.leaf key value s) = leafHash key value s.version := h.hash_eq

theorem Verified.hash_branch {height size : ℕ} {key : Bytes} {s : Stamp} {left right : Mixed}
    (h : Verified (.branch height size key s left right)) :
    Mixed.hash (.branch height size key s left right) =
      branchHash height size s.version (Mixed.hash left) (Mixed.hash right) := by
  have hl : Verified left := h.2.1
  have hr : Verified right := h.2.2
  rw [h.hash_eq,hl.hash_eq,hr.hash_eq]
  rfl

/-- The operations from the leaf of a path up to the root give the hash of the root. -/
theorem calculate_pathTo {t : Mixed} (hbal : t.Balanced) (hver : Verified t)
    (hcount : t.leafCount < 2^63) (key : Bytes) :
    (pathTo key t).foldr (fun node res => (convertInnerOp node).apply res)
        ((convertLeafOp (.ofNat (leafTo key t).2.2.version.toNat)).apply (leafTo key t).1
          (leafTo key t).2.1) = (Mixed.hash t).val := by
  induction t with
  | leaf k v s =>
    rw [hver.hash_leaf]
    exact apply_convertLeafOp s.version k v
  | branch height size k s left right ihl ihr =>
    have hheight : height < 2^7 := by
      have hlt : (branch height size k s left right).height < 91 :=
        hbal.height_lt (hcount.trans_le (by norm_num))
      rw [height_branch] at hlt
      omega
    have hsize : size < 2^63 := hbal.size_eq.trans_lt hcount
    obtain ⟨hbl,hbr,-⟩ := hbal
    rw [leafCount] at hcount
    rw [hver.hash_branch,pathTo,leafTo]
    split
    · rw [List.foldr_cons,ihl hbl hver.2.1 (by omega)]
      exact apply_left hheight hsize _ _ _
    · rw [List.foldr_cons,ihr hbr hver.2.2 (by omega)]
      exact apply_right hheight hsize _ _ _

end Mixed

theorem foldl_convertInnerOps (path : List ProofInnerNode) (res : Bytes) :
    (convertInnerOps path).foldl (fun res op => op.apply res) res =
      path.foldr (fun node res => (convertInnerOp node).apply res) res := by
  rw [convertInnerOps,List.foldl_map,List.foldl_reverse]

section
variable {h : Heap} {n l r : Node} {t : Mixed} {F : Finset ℕ}

theorem Node.IsLeaf.version_run {key value : Bytes} {s : Stamp} (hn : n.IsLeaf h key value s) :
    n.version h = some (s.version,h) := by
  cases n with
  | mem a =>
    obtain ⟨c,hc,-,-,-,-,rfl⟩ := hn
    simp [Node.version,run_bind,load_of hc]
  | persisted p =>
    obtain ⟨-,-,v,d,hv,-,rfl⟩ := hn
    simp [Node.version,hv]

theorem Node.IsBranch.version_run {height size : ℕ} {key : Bytes} {s : Stamp}
    (hn : n.IsBranch h height size key s l r) : n.version h = some (s.version,h) := by
  cases n with
  | mem a =>
    obtain ⟨c,hc,-,-,-,-,-,-,rfl⟩ := hn
    simp [Node.version,run_bind,load_of hc]
  | persisted p =>
    obtain ⟨-,-,-,-,-,v,d,hv,-,rfl⟩ := hn
    simp [Node.version,hv]

/-- The path that is read is that of the tree. -/
theorem pathToLeaf_spec {fuel : ℕ} (ht : Rep h n t F) (hbal : t.Balanced) (hf : t.height < fuel)
    (key : Bytes) : Wp (pathToLeaf key fuel n) h fun res h' => res.1 = Mixed.pathTo key t ∧
      res.2.1.IsLeaf h' (Mixed.leafTo key t).1 (Mixed.leafTo key t).2.1 (Mixed.leafTo key t).2.2 ∧
      res.2.2 = (if (Mixed.leafTo key t).1 = key then none else some "key does not exist") ∧
      Keeps h h' := by
  induction t generalizing n F h fuel with
  | leaf k v s =>
    obtain ⟨fuel,rfl⟩ : ∃ f, fuel = f+1 := ⟨fuel-1,by omega⟩
    obtain ⟨hn,-⟩ := ht
    refine wp_bind_of hn.height_run (wp_bind_of hn.key_run ?_)
    rw [if_pos rfl]
    exact (wp_pure ..).mpr ⟨rfl,hn,rfl,Keeps.refl h⟩
  | branch height size k s left right ihl ihr =>
    obtain ⟨fuel,rfl⟩ : ∃ f, fuel = f+1 := ⟨fuel-1,by omega⟩
    have ht' := ht
    obtain ⟨l,r,Fl,Fr,hn,hl,hr,-⟩ := ht'
    obtain ⟨hbl,hbr,hheight,-⟩ := hbal
    rw [height_branch] at hf
    refine wp_bind_of hn.height_run (wp_bind_of hn.key_run ?_)
    rw [if_neg (by omega)]
    refine wp_bind_of hn.size_run (wp_bind_of hn.version_run ?_)
    by_cases hkey : key < k
    · simp only [Mixed.pathTo,Mixed.leafTo,if_pos hkey]
      refine wp_bind_of hn.right_run ((hash_spec hr hbr (by omega)).bind ?_)
      rintro _ h₁ ⟨rfl,hk₁⟩
      -- The hash may have been written into cells; the node is still the same branch.
      obtain ⟨l₁,r₁,_,_,hn₁,hl₁,-⟩ := hk₁.rep _ _ _ ht
      refine wp_bind_of hn₁.left_run ((ihl hl₁ hbl (by omega)).bind ?_)
      rintro ⟨path,leafNode,err⟩ h₂ ⟨rfl,hleaf,herr,hk₂⟩
      exact (wp_pure ..).mpr ⟨rfl,hleaf,herr,hk₁.trans hk₂⟩
    · simp only [Mixed.pathTo,Mixed.leafTo,if_neg hkey]
      refine wp_bind_of hn.left_run ((hash_spec hl hbl (by omega)).bind ?_)
      rintro _ h₁ ⟨rfl,hk₁⟩
      obtain ⟨l₁,r₁,_,_,hn₁,-,hr₁,-⟩ := hk₁.rep _ _ _ ht
      refine wp_bind_of hn₁.right_run ((ihr hr₁ hbr (by omega)).bind ?_)
      rintro ⟨path,leafNode,err⟩ h₂ ⟨rfl,hleaf,herr,hk₂⟩
      exact (wp_pure ..).mpr ⟨rfl,hleaf,herr,hk₁.trans hk₂⟩

/-- The existence proof that a tree gives for a key. -/
def Mixed.existenceProof (key : Bytes) (t : Mixed) : ExistenceProof :=
  let (k,v,s) := leafTo key t
  ⟨k,v,convertLeafOp (.ofNat s.version.toNat),convertInnerOps (pathTo key t)⟩

theorem createExistenceProof_spec {tree : Tree} (ht : RootRep h tree.root (some t) F)
    (hbal : t.Balanced) (key : Bytes) :
    Wp (tree.createExistenceProof key) h fun res h' => res = (Mixed.existenceProof key t,
      if (Mixed.leafTo key t).1 = key then none else some "key does not exist") ∧ Keeps h h' := by
  have hfuel := Tree.fuel_run ht
  unfold Tree.createExistenceProof
  cases hroot : tree.root with
  | none =>
    rw [hroot] at ht
    exact ht.elim
  | some n =>
    rw [hroot] at ht
    refine wp_bind_of (lift_some n h) (wp_bind_of hfuel ?_)
    refine (pathToLeaf_spec ht hbal (Nat.lt_succ_self _) key).bind ?_
    rintro ⟨path,node,err⟩ h' ⟨rfl,hleaf,rfl,hk⟩
    refine wp_bind_of hleaf.key_run (wp_bind_of hleaf.value_run (wp_bind_of hleaf.version_run ?_))
    exact (wp_pure ..).mpr ⟨rfl,hk⟩

/-- The proof for a key of the tree is about this key and its value, and evaluates to the hash of
the root. -/
theorem Mixed.existenceProof_of_lookup {key value : Bytes} (havl : t.Avl) (hver : t.Verified)
    (hcount : t.leafCount < 2^63) (hkey : t.toList.lookup key = some value) :
    (existenceProof key t).key = key ∧ (existenceProof key t).value = value ∧
      (existenceProof key t).calculate key value = t.hash.val ∧ (leafTo key t).1 = key := by
  rw [lookup_eq_leafTo havl.search] at hkey
  split_ifs at hkey with hleaf
  have hvalue := Option.some.inj hkey
  have hcalc := calculate_pathTo havl.balanced hver hcount key
  rw [hleaf,hvalue,← foldl_convertInnerOps] at hcalc
  exact ⟨hleaf,hvalue,hcalc,hleaf⟩

end

namespace CachedTree

/-- A key of the tree has a proof that evaluates to the hash of the root, and no other key has one. -/
theorem getMembershipProof_verifies {C : ValueCache Bytes Bytes} {h : Heap} {t : CachedTree C} {u : Mixed} {F : Finset ℕ}
    (hrep : RootRep h t.tree.root (some u) F) (havl : u.Avl) (hver : u.Verified)
    (hcount : u.leafCount < 2^63) (key : Bytes) :
    (∀ value, u.toList.lookup key = some value → ∃ proof h', t.getMembershipProof key h =
        some (.ok (.exist proof),h') ∧ proof.key = key ∧ proof.value = value ∧
        ∃ root h'', t.tree.rootHash h' = some (root,h'') ∧ proof.calculate key value = root.val) ∧
      (u.toList.lookup key = none → ∃ err h', t.getMembershipProof key h = some (.error err,h')) := by
  obtain ⟨_,h',hproof,rfl,hk⟩ := createExistenceProof_spec hrep havl.balanced key
  have hrun : t.getMembershipProof key h = some (if (Mixed.leafTo key u).1 = key then
      .ok (.exist (Mixed.existenceProof key u)) else .error "key does not exist",h') := by
    rw [getMembershipProof,run_bind,hproof,Option.bind_some]
    split_ifs <;> rfl
  constructor
  · intro value hvalue
    obtain ⟨hpkey,hpvalue,hcalc,hleaf⟩ := Mixed.existenceProof_of_lookup havl hver hcount hvalue
    obtain ⟨_,h'',hhash,rfl,-⟩ := Tree.rootHash_spec (hrep.keeps hk) (by simpa using havl)
    exact ⟨_,h',by rw [hrun,if_pos hleaf],hpkey,hpvalue,_,h'',hhash,hcalc⟩
  · intro hnone
    rw [Mixed.lookup_eq_leafTo havl.search] at hnone
    split_ifs at hnone with hleaf
    exact ⟨_,h',by rw [hrun,if_neg hleaf]⟩

end CachedTree

namespace Sample

def pairHeap : Heap := ⟨[newLeafNode [1] [10] 1,newLeafNode [2] [20] 1,
  { height := 1, size := 2, version := 1, key := [2], left := some (.mem 0), right := some (.mem 1) }]⟩

def pairTree : Mixed := .branch 1 2 [2] ⟨1,none⟩ (.leaf [1] [10] ⟨1,none⟩) (.leaf [2] [20] ⟨1,none⟩)

theorem rep_pair : RootRep pairHeap (some (.mem 2)) (some pairTree) {0,1,2} := by
  have hcache : ∀ a d, (Node.mem a).CacheOk pairHeap d := by
    intro a d c hc x hx
    have hnone : ∀ c ∈ pairHeap.cells, c.hash = none := by decide
    rw [hnone c (List.mem_of_getElem? hc)] at hx
    cases hx
  refine ⟨.mem 0,.mem 1,{0},{1},⟨_,rfl,rfl,by decide,rfl,rfl,rfl,rfl,rfl⟩,
    ⟨⟨_,rfl,rfl,rfl,rfl,rfl,rfl⟩,hcache 0 _,rfl⟩,⟨⟨_,rfl,rfl,rfl,rfl,rfl,rfl⟩,hcache 1 _,rfl⟩,
    by decide,by decide,hcache 2 _,by decide⟩

theorem verified_pair : pairTree.Verified :=
  ⟨by simp [LeafTree.ann],by simp [LeafTree.Every,LeafTree.ann],by simp [LeafTree.Every,LeafTree.ann]⟩

end Sample

open Sample in
theorem CachedTree.getMembershipProof_verifies_pair :
    ∃ proof h', (⟨{ version := 1, root := some (.mem 2) },none,true⟩ : CachedTree .lru).getMembershipProof
        [2] pairHeap = some (.ok (.exist proof),h') ∧ proof.key = [2] ∧ proof.value = [20] ∧
      ∃ root h'', Tree.rootHash { version := 1, root := some (.mem 2) } h' = some (root,h'') ∧
        proof.calculate [2] [20] = root.val :=
  (CachedTree.getMembershipProof_verifies (C := .lru)
    (t := ⟨{ version := 1, root := some (.mem 2) },none,true⟩)
    rep_pair (by decide) verified_pair (by decide) [2]).1 [20] (by decide)

end Memiavl
