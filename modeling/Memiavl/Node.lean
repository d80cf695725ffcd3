import Memiavl.Library.LeafTree
import Memiavl.Library.Sha256

/-! Contents and hashes of IAVL nodes, independent of where a node is kept.
Heights and sizes are naturals; `heightFits` shows that the 8-bit height of the
code never wraps below `2^63` leaves. -/
namespace Memiavl

/-- A version number of the code: an unsigned 32-bit integer. -/
abbrev Version := UInt32

/-- A tree of nodes that carry only their version. -/
abbrev Contents := LeafTree Bytes Bytes Version

def encodeBytes (bz : Bytes) : Bytes := Bytes.putUvarint bz.length ++ bz

/-- `writeHashBytes`. A leaf writes its key and the hash of its value,
a branch the hashes of its two children. -/
def writeHashBytes (height size : ℕ) (version : Version) (first second : Bytes) : Bytes :=
  Bytes.putVarint height ++ Bytes.putVarint size ++ Bytes.putVarint version.toNat ++
    encodeBytes first ++ encodeBytes second

def leafHash (key value : Bytes) (version : Version) : Digest :=
  sha256 (writeHashBytes 0 1 version key (sha256 value).val)

def branchHash (height size : ℕ) (version : Version) (left right : Digest) : Digest :=
  sha256 (writeHashBytes height size version left.val right.val)

/-- `HashNode` with every child hash computed anew. -/
def hashNode : Contents → Digest
  | .leaf key value version => leafHash key value version
  | .branch height size _ version left right =>
    branchHash height size version (hashNode left) (hashNode right)

def emptyHash : Digest := sha256 []

def rootHash : Option Contents → Digest
  | none => emptyHash
  | some t => hashNode t

/-- What a node keeps beside its shape: its version, and for a node that lives in a
snapshot file also the hash stored there. -/
structure Stamp where
  version : Version
  stored : Option Digest
  deriving DecidableEq

/-- A tree that mixes nodes in memory with nodes of a snapshot. -/
abbrev Mixed := LeafTree Bytes Bytes Stamp

def Mixed.contents (t : Mixed) : Contents := t.mapAnn Stamp.version

/-- `Node.Hash`: a stored hash is returned as it is. -/
def Mixed.hash : Mixed → Digest
  | .leaf key value s => s.stored.getD (leafHash key value s.version)
  | .branch height size _ s left right =>
    s.stored.getD (branchHash height size s.version (Mixed.hash left) (Mixed.hash right))

/-- `VerifyHash` holds for every node that has a stored hash. -/
def Mixed.Verified (t : Mixed) : Prop :=
  t.Every fun u => ∀ d ∈ u.ann.stored, d = hashNode (Mixed.contents u)

theorem Mixed.Verified.hash_eq {t : Mixed} (ht : t.Verified) : t.hash = hashNode t.contents := by
  induction t with
  | leaf key value s =>
    obtain ⟨version,stored⟩ := s
    cases stored with
    | none => rfl
    | some d => exact ht d rfl
  | branch height size key s left right ihl ihr =>
    obtain ⟨hs,hl,hr⟩ := ht
    obtain ⟨version,stored⟩ := s
    cases stored with
    | none =>
      simp only [Mixed.hash,Option.getD_none,ihl hl,ihr hr]
      rfl
    | some d => exact hs d rfl

/-- A balanced tree with fewer than `2^63` leaves fits the 8-bit height of a node. -/
theorem heightFits {α : Type} {t : LeafTree Bytes Bytes α} (ht : t.Balanced)
    (hn : t.leafCount < 2^63) : t.height < 2^8 := by
  have h : t.height < 91 := ht.height_lt (hn.trans_le (by norm_num))
  omega

end Memiavl
